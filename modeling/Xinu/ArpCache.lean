import Xinu.HeapAllocator
import Xinu.TransitionSystem

/-!
# The ARP cache

`arp_resolve` looks an address up, or creates a pending entry, asks for the
address on the network and sleeps; `arp_in` updates an entry, wakes its
creator and may add an entry of its own; `arp_alloc` evicts.  A resolver
sleeps with its only mailbox open to everybody, so its steps up to the sleep
and after it are separate.  Packets are given in host byte order.
-/

namespace Xinu.ArpCache

open ByteMemory TransitionSystem

abbrev Mac := BitVec 48

def ARP_SIZ : ℕ := 16
def ARP_RETRY : ℕ := 3
def ARP_HTYPE : BitVec 16 := 1
def ARP_PTYPE : BitVec 16 := 0x0800
def ARP_OP_RPLY : BitVec 16 := 2
def IP_BCAST : Word := 0xffffffff

inductive ArState
  | free
  | pending
  | resolved
  deriving DecidableEq

structure Arpentry where
  arstate : ArState
  arpaddr : Word
  arpid : ℤ
  arhaddr : Mac

/-- An entry after `memset` with `NULLCH`. -/
def nullEntry : Arpentry := ⟨.free, 0, 0, 0⟩

/-- The fields of `NetData` that the ARP code reads. -/
structure Netdata where
  ipvalid : Bool
  ipucast : Word
  ipbcast : Word
  ethbcast : Mac

structure Arppacket where
  arp_htype : BitVec 16
  arp_ptype : BitVec 16
  arp_op : BitVec 16
  arp_sndha : Mac
  arp_sndpa : Word
  arp_tarpa : Word

/-- A resolver that sleeps: its slot, and how many times it has timed out.
Calls are numbered. -/
structure Resolving where
  call : ℕ
  nxthop : Word
  slot : ℕ
  tries : ℕ

/-- What a call of `arp_resolve` has returned, with the address that it has
copied. -/
structure Answer where
  call : ℕ
  nxthop : Word
  status : Word
  mac : Option Mac

/-- The address that a packet reports for its sender. -/
abbrev Report := Word × Mac

/-- The cache and the resolvers.  `heard` are the reports of all packets,
`since` those since the entry of a slot was created, and `creator` is the call
that created it. -/
structure Arp where
  arpcache : ℕ → Arpentry
  inbox : ℤ → Option Word
  resolving : ℤ → Option Resolving
  calls : ℕ
  answers : List Answer
  heard : List Report
  since : ℕ → List Report
  creator : ℕ → ℕ

namespace Arp

variable (net : Netdata) (s : Arp)

def setEntry (slot : ℕ) (e : Arpentry) : Arp :=
  { s with arpcache := Function.update s.arpcache slot e }

/-- `send`, which fails if the recipient has a message. -/
def send (pid : ℤ) (msg : Word) : Arp :=
  match s.inbox pid with
  | none => { s with inbox := Function.update s.inbox pid (some msg) }
  | some _ => s

/-- The search loop of `arp_resolve` and `arp_in`. -/
def find (ip : Word) : Option ℕ :=
  (List.range ARP_SIZ).find? fun i =>
    (s.arpcache i).arstate ≠ .free ∧ (s.arpcache i).arpaddr = ip

/-- `arp_alloc`: a free slot, or else the slot of a resolved entry. -/
def arpAlloc : Option ℕ :=
  match (List.range ARP_SIZ).find? fun i => (s.arpcache i).arstate = .free with
  | some slot => some slot
  | none =>
      (List.range ARP_SIZ).find? fun i => (s.arpcache i).arstate = .resolved

/-- Fill in an entry that `arp_alloc` has cleared. -/
def create (slot : ℕ) (e : Arpentry) (reports : List Report) : Arp :=
  { s.setEntry slot e with since := Function.update s.since slot reports }

/-- The packet is an Ethernet/IPv4 packet and is processed. -/
def hear (pkt : Arppacket) : Arp :=
  { s with
    heard := s.heard ++ [(pkt.arp_sndpa, pkt.arp_sndha)]
    since := fun i => s.since i ++ [(pkt.arp_sndpa, pkt.arp_sndha)] }

/-- Update the sender's entry and tell the process that waits for it. -/
def update (slot : ℕ) (mac : Mac) : Arp :=
  let s := s.setEntry slot { s.arpcache slot with arhaddr := mac }
  if (s.arpcache slot).arstate = .pending then
    (s.setEntry slot { s.arpcache slot with arstate := .resolved }).send
      (s.arpcache slot).arpid OK
  else s

/-- `arp_in`, as far as it concerns the cache. -/
def arpIn (pkt : Arppacket) : Arp :=
  if pkt.arp_htype ≠ ARP_HTYPE ∨ pkt.arp_ptype ≠ ARP_PTYPE then s
  else
    let s := s.hear pkt
    match s.find pkt.arp_sndpa with
    | some slot => s.update slot pkt.arp_sndha
    | none =>
        if pkt.arp_op = ARP_OP_RPLY then s
        else if ¬ net.ipvalid ∨ pkt.arp_tarpa ≠ net.ipucast then s
        else
          match s.arpAlloc with
          | none => s
          | some slot =>
              s.create slot ⟨.resolved, pkt.arp_sndpa, 0, pkt.arp_sndha⟩
                [(pkt.arp_sndpa, pkt.arp_sndha)]

/-- `arp_resolve` returns to its caller. -/
def answer (call : ℕ) (nxthop status : Word) (mac : Option Mac) : Arp :=
  { s with answers := s.answers ++ [⟨call, nxthop, status, mac⟩] }

/-- `arp_resolve` up to the place where it sleeps. -/
def arpResolve (pid : ℤ) (nxthop : Word) : Arp :=
  let call := s.calls
  let s := { s with calls := s.calls + 1 }
  if nxthop = IP_BCAST then s.answer call nxthop OK (some net.ethbcast)
  else if nxthop = net.ipbcast then s.answer call nxthop OK (some net.ethbcast)
  else
    match s.find nxthop with
    | some i =>
        if (s.arpcache i).arstate = .resolved then
          s.answer call nxthop OK (some (s.arpcache i).arhaddr)
        else s.answer call nxthop SYSERR none
    | none =>
        match s.arpAlloc with
        | none => s.answer call nxthop SYSERR none
        | some slot =>
            let s := s.create slot ⟨.pending, nxthop, pid, 0⟩ []
            { s with
              creator := Function.update s.creator slot call
              inbox := Function.update s.inbox pid none
              resolving := Function.update s.resolving pid
                (some ⟨call, nxthop, slot, 0⟩) }

/-- The message with which `recvtime` ends when the process runs again. -/
def wakeMsg (pid : ℤ) : Word := (s.inbox pid).getD TIMEOUT

/-- A call that has slept returns. -/
def finish (pid : ℤ) (r : Resolving) (status : Word) (mac : Option Mac) : Arp :=
  ({ s with resolving := Function.update s.resolving pid none }).answer r.call
    r.nxthop status mac

/-- `arp_resolve` after `recvtime`. -/
def resume (pid : ℤ) (r : Resolving) : Arp :=
  let msg := s.wakeMsg pid
  let s := { s with inbox := Function.update s.inbox pid none }
  if msg = TIMEOUT then
    if r.tries + 1 < ARP_RETRY then
      { s with
        resolving := Function.update s.resolving pid
          (some { r with tries := r.tries + 1 }) }
    else
      (s.setEntry r.slot { s.arpcache r.slot with arstate := .free }).finish pid
        r TIMEOUT none
  else if msg = SYSERR then s.finish pid r SYSERR none
  else s.finish pid r OK (some (s.arpcache r.slot).arhaddr)

end Arp

inductive ArpAction
  | packet (pkt : Arppacket)
  | resolve (pid : ℤ) (nxthop : Word)
  | send (pid : ℤ) (msg : Word)
  | resume (pid : ℤ)

/-- One step.  A process that sleeps in `arp_resolve` makes no other call, and
goes on when it has a message or its timer has expired. -/
def arpStep (net : Netdata) (s : Arp) : ArpAction → Option Arp
  | .packet pkt => some (s.arpIn net pkt)
  | .resolve pid nxthop =>
      if (s.resolving pid).isSome then none
      else some (s.arpResolve net pid nxthop)
  | .send pid msg => some (s.send pid msg)
  | .resume pid => (s.resolving pid).map fun r => s.resume pid r

def arpInit : Arp where
  arpcache _ := nullEntry
  inbox _ := none
  resolving _ := none
  calls := 0
  answers := []
  heard := []
  since _ := []
  creator _ := 0

/-! ## The cache -/

/-- The address in the latest report for `ip`. -/
def latest (ip : Word) (reports : List Report) : Option Mac :=
  (reports.filter fun r => r.1 = ip).getLast?.map Prod.snd

/-- An entry of the cache is in use for `ip`. -/
def Arp.Holds (s : Arp) (slot : ℕ) (ip : Word) : Prop :=
  slot < ARP_SIZ ∧ (s.arpcache slot).arstate ≠ .free ∧
    (s.arpcache slot).arpaddr = ip

def Arp.Pending (s : Arp) (slot : ℕ) : Prop :=
  slot < ARP_SIZ ∧ (s.arpcache slot).arstate = .pending

/-- The timer of a resolver has expired for the last time. -/
def Arp.GivesUp (s : Arp) (action : ArpAction) (slot : ℕ) : Prop :=
  ∃ pid r, action = .resume pid ∧ s.resolving pid = some r ∧ r.slot = slot ∧
    s.wakeMsg pid = TIMEOUT

structure CacheLaw (net : Netdata) (s : Arp) : Prop where
  unique : ∀ i j ip, s.Holds i ip → s.Holds j ip → i = j
  fresh : ∀ slot < ARP_SIZ, (s.arpcache slot).arstate = .resolved →
    latest (s.arpcache slot).arpaddr (s.since slot) =
      some (s.arpcache slot).arhaddr
  kept : ∀ action s', arpStep net s action = some s' →
    ∀ slot, s.Pending slot → s'.arpcache slot = s.arpcache slot ∨
      ((s'.arpcache slot).arstate = .resolved ∧
        (s'.arpcache slot).arpaddr = (s.arpcache slot).arpaddr) ∨
      (s.GivesUp action slot ∧ (s'.arpcache slot).arstate = .free)

section Cache

variable {net : Netdata} {s s' : Arp} {slot i : ℕ} {ip : Word} {mac : Mac}
  {pkt : Arppacket} {action : ArpAction} {pid : ℤ}

theorem latest_append (reports : List Report) (ip' : Word) :
    latest ip (reports ++ [(ip', mac)]) =
      if ip' = ip then some mac else latest ip reports := by
  unfold latest
  rw [List.filter_append]
  split_ifs with heq
  · simp [heq]
  · simp [heq]

@[simp] theorem arpcache_setEntry_self (e : Arpentry) :
    (s.setEntry slot e).arpcache slot = e :=
  Function.update_self ..

theorem arpcache_setEntry_of_ne (e : Arpentry) (hne : i ≠ slot) :
    (s.setEntry slot e).arpcache i = s.arpcache i :=
  Function.update_of_ne hne ..

/-- Sending a message changes nothing but a mailbox. -/
theorem send_frame (msg : Word) :
    (s.send pid msg).arpcache = s.arpcache ∧
      (s.send pid msg).since = s.since ∧ (s.send pid msg).heard = s.heard ∧
      (s.send pid msg).resolving = s.resolving ∧
      (s.send pid msg).calls = s.calls ∧
      (s.send pid msg).answers = s.answers ∧
      (s.send pid msg).creator = s.creator := by
  unfold Arp.send
  split <;> exact ⟨rfl, rfl, rfl, rfl, rfl, rfl, rfl⟩

theorem find_some (hfind : s.find ip = some slot) : s.Holds slot ip := by
  have hused := List.find?_some hfind
  have hmem := List.mem_of_find?_eq_some hfind
  simp only [decide_eq_true_eq] at hused
  exact ⟨List.mem_range.mp hmem, hused⟩

theorem find_none (hfind : s.find ip = none) : ¬ s.Holds slot ip := by
  intro ⟨hslot, hused⟩
  have hnone := List.find?_eq_none.mp hfind slot (List.mem_range.mpr hslot)
  simp only [decide_eq_true_eq] at hnone
  exact hnone hused

/-- `arp_alloc` does not evict a pending entry. -/
theorem arpAlloc_some (halloc : s.arpAlloc = some slot) :
    slot < ARP_SIZ ∧ ¬ s.Pending slot := by
  unfold Arp.arpAlloc at halloc
  split at halloc
  next i hfree =>
    obtain rfl := Option.some.inj halloc
    have hstate := List.find?_some hfree
    simp only [decide_eq_true_eq] at hstate
    refine ⟨List.mem_range.mp (List.mem_of_find?_eq_some hfree), fun h => ?_⟩
    rw [h.2] at hstate
    cases hstate
  next =>
    have hstate := List.find?_some halloc
    simp only [decide_eq_true_eq] at hstate
    refine ⟨List.mem_range.mp (List.mem_of_find?_eq_some halloc), fun h => ?_⟩
    rw [h.2] at hstate
    cases hstate

/-- Entries are unique and resolved entries are fresh. -/
structure CacheInv (s : Arp) : Prop where
  unique : ∀ i j ip, s.Holds i ip → s.Holds j ip → i = j
  fresh : ∀ slot < ARP_SIZ, (s.arpcache slot).arstate = .resolved →
    latest (s.arpcache slot).arpaddr (s.since slot) =
      some (s.arpcache slot).arhaddr

theorem CacheInv.same
    (h : CacheInv s) (hcache : s'.arpcache = s.arpcache)
    (hsince : s'.since = s.since) : CacheInv s' := by
  refine ⟨fun i j ip hi hj => h.unique i j ip ?_ ?_, fun slot hslot hstate => ?_⟩
  · unfold Arp.Holds at *
    rwa [← hcache]
  · unfold Arp.Holds at *
    rwa [← hcache]
  · rw [hcache] at hstate ⊢
    rw [hsince]
    exact h.fresh slot hslot hstate

theorem CacheInv.send (h : CacheInv s) (msg : Word) : CacheInv (s.send pid msg) :=
  h.same (send_frame msg).1 (send_frame msg).2.1

theorem CacheInv.free (h : CacheInv s) :
    CacheInv (s.setEntry slot { s.arpcache slot with arstate := .free }) := by
  have hold : ∀ i ip, (s.setEntry slot
      { s.arpcache slot with arstate := .free }).Holds i ip → s.Holds i ip := by
    intro i ip ⟨hi, hused, hip⟩
    by_cases hne : i = slot
    · subst hne
      rw [arpcache_setEntry_self] at hused
      exact absurd rfl hused
    · rw [arpcache_setEntry_of_ne _ hne] at hused hip
      exact ⟨hi, hused, hip⟩
  refine ⟨fun i j ip hi hj => h.unique i j ip (hold i ip hi) (hold j ip hj), ?_⟩
  intro i hi hstate
  by_cases hne : i = slot
  · subst hne
    rw [arpcache_setEntry_self] at hstate
    cases hstate
  · rw [arpcache_setEntry_of_ne _ hne] at hstate ⊢
    exact h.fresh i hi hstate

/-- An entry is created for an address that has none. -/
theorem CacheInv.create
    {e : Arpentry} {reports : List Report} (h : CacheInv s)
    (hnew : ∀ i, ¬ s.Holds i e.arpaddr)
    (hfresh : e.arstate = .resolved → latest e.arpaddr reports = some e.arhaddr) :
    CacheInv (s.create slot e reports) := by
  have hcache : (s.create slot e reports).arpcache =
      (s.setEntry slot e).arpcache := rfl
  have hself : (s.create slot e reports).arpcache slot = e :=
    Function.update_self ..
  have hother : ∀ i ≠ slot,
      (s.create slot e reports).arpcache i = s.arpcache i :=
    fun i hne => Function.update_of_ne hne ..
  have hold : ∀ i ip, i ≠ slot → (s.create slot e reports).Holds i ip →
      s.Holds i ip := by
    intro i ip hne hi
    unfold Arp.Holds at hi
    rwa [hother i hne] at hi
  have haddr : ∀ ip, (s.create slot e reports).Holds slot ip →
      ip = e.arpaddr := by
    intro ip hi
    have hip := hi.2.2
    rw [hself] at hip
    exact hip.symm
  constructor
  · intro i j ip hi hj
    by_cases hislot : i = slot
    · subst hislot
      by_contra hne
      have hj' := hold j ip (Ne.symm hne) hj
      rw [haddr ip hi] at hj'
      exact hnew j hj'
    · by_cases hjslot : j = slot
      · subst hjslot
        have hi' := hold i ip hislot hi
        rw [haddr ip hj] at hi'
        exact absurd hi' (hnew i)
      · exact h.unique i j ip (hold i ip hislot hi) (hold j ip hjslot hj)
  · intro i hi hstate
    by_cases hne : i = slot
    · subst hne
      rw [hself] at hstate ⊢
      show latest e.arpaddr (Function.update s.since i reports i) = _
      rw [Function.update_self]
      exact hfresh hstate
    · rw [hother i hne] at hstate ⊢
      show latest _ (Function.update s.since slot reports i) = _
      rw [Function.update_of_ne hne]
      exact h.fresh i hi hstate

theorem arpcache_update :
    (s.update slot mac).arpcache = Function.update s.arpcache slot
      { s.arpcache slot with
        arhaddr := mac
        arstate := if (s.arpcache slot).arstate = .pending then .resolved
          else (s.arpcache slot).arstate } := by
  unfold Arp.update
  dsimp only
  simp only [arpcache_setEntry_self]
  split_ifs with hpending
  · rw [(send_frame OK).1]
    unfold Arp.setEntry
    dsimp only
    rw [Function.update_idem]
  · rfl

theorem update_frame :
    (s.update slot mac).since = s.since ∧ (s.update slot mac).heard = s.heard ∧
      (s.update slot mac).resolving = s.resolving ∧
      (s.update slot mac).calls = s.calls ∧
      (s.update slot mac).answers = s.answers ∧
      (s.update slot mac).creator = s.creator := by
  unfold Arp.update
  dsimp only
  split_ifs
  · exact (send_frame OK).2
  · exact ⟨rfl, rfl, rfl, rfl, rfl, rfl⟩

/-- A report reaches the entry of its sender, which is the only one. -/
theorem CacheInv.update
    (h : CacheInv s) (hholds : s.Holds slot pkt.arp_sndpa) :
    CacheInv ((s.hear pkt).update slot pkt.arp_sndha) := by
  have hcache := @arpcache_update (s.hear pkt) slot pkt.arp_sndha
  have hhear : (s.hear pkt).arpcache = s.arpcache := rfl
  rw [hhear] at hcache
  have hold : ∀ i ip, ((s.hear pkt).update slot pkt.arp_sndha).Holds i ip →
      s.Holds i ip := by
    intro i ip ⟨hi, hused, hip⟩
    rw [hcache] at hused hip
    by_cases hne : i = slot
    · subst hne
      rw [Function.update_self] at hip
      exact ⟨hi, hholds.2.1, hip⟩
    · rw [Function.update_of_ne hne] at hused hip
      exact ⟨hi, hused, hip⟩
  refine ⟨fun i j ip hi hj => h.unique i j ip (hold i ip hi) (hold j ip hj), ?_⟩
  intro i hi hstate
  rw [update_frame.1]
  show latest _ (s.since i ++ [(pkt.arp_sndpa, pkt.arp_sndha)]) = _
  rw [hcache] at hstate ⊢
  by_cases hne : i = slot
  · subst hne
    rw [Function.update_self, latest_append, if_pos hholds.2.2.symm]
  · rw [Function.update_of_ne hne] at hstate ⊢
    rw [latest_append, if_neg]
    · exact h.fresh i hi hstate
    · intro hip
      refine hne (h.unique i slot pkt.arp_sndpa ⟨hi, ?_, hip.symm⟩ hholds)
      rw [hstate]
      decide

/-- A report that concerns no entry. -/
theorem CacheInv.hear
    (h : CacheInv s) (hnone : ∀ i, ¬ s.Holds i pkt.arp_sndpa) :
    CacheInv (s.hear pkt) := by
  refine ⟨h.unique, fun i hi hstate => ?_⟩
  show latest _ (s.since i ++ [(pkt.arp_sndpa, pkt.arp_sndha)]) = _
  rw [latest_append, if_neg]
  · exact h.fresh i hi hstate
  · intro hip
    refine hnone i ⟨hi, ?_, hip.symm⟩
    rw [show (s.arpcache i).arstate = .resolved from hstate]
    decide

theorem CacheInv.arpIn (h : CacheInv s) : CacheInv (s.arpIn net pkt) := by
  unfold Arp.arpIn
  dsimp only
  by_cases hother : pkt.arp_htype ≠ ARP_HTYPE ∨ pkt.arp_ptype ≠ ARP_PTYPE
  · rw [if_pos hother]
    exact h
  · rw [if_neg hother]
    cases hfind : (s.hear pkt).find pkt.arp_sndpa with
    | some slot => exact h.update (find_some hfind)
    | none =>
        have hnone : ∀ i, ¬ (s.hear pkt).Holds i pkt.arp_sndpa :=
          fun i => find_none hfind
        have hheard := h.hear hnone
        dsimp only
        split_ifs
        · exact hheard
        · exact hheard
        · cases halloc : (s.hear pkt).arpAlloc with
          | none => exact hheard
          | some slot =>
              refine hheard.create hnone fun _ => ?_
              simp [latest]

theorem CacheInv.arpResolve (h : CacheInv s) (nxthop : Word) :
    CacheInv (s.arpResolve net pid nxthop) := by
  unfold Arp.arpResolve
  dsimp only
  split_ifs
  · exact h.same rfl rfl
  · exact h.same rfl rfl
  · cases hfind : Arp.find { s with calls := s.calls + 1 } nxthop with
    | some i =>
        dsimp only
        split_ifs
        · exact h.same rfl rfl
        · exact h.same rfl rfl
    | none =>
        cases halloc : Arp.arpAlloc { s with calls := s.calls + 1 } with
        | none => exact h.same rfl rfl
        | some slot =>
            have hnone : ∀ i, ¬ s.Holds i nxthop := fun i hi =>
              @find_none _ i _ hfind hi
            have hcreated : CacheInv
                (s.create slot ⟨.pending, nxthop, pid, 0⟩ []) :=
              h.create hnone fun hstate => by cases hstate
            exact hcreated.same rfl rfl

theorem CacheInv.resume (h : CacheInv s) (r : Resolving) :
    CacheInv (s.resume pid r) := by
  unfold Arp.resume
  dsimp only
  split_ifs
  · exact h.same rfl rfl
  · exact (@CacheInv.free _ r.slot h).same rfl rfl
  · exact h.same rfl rfl
  · exact h.same rfl rfl

theorem CacheInv.step
    (h : CacheInv s) (hstep : arpStep net s action = some s') : CacheInv s' := by
  cases action with
  | packet pkt =>
      cases hstep
      exact h.arpIn
  | resolve pid nxthop =>
      simp only [arpStep] at hstep
      split_ifs at hstep
      cases hstep
      exact h.arpResolve nxthop
  | send pid msg =>
      cases hstep
      exact h.send msg
  | resume pid =>
      obtain ⟨r, -, rfl⟩ := Option.map_eq_some_iff.mp hstep
      exact h.resume r

theorem arpAlloc_ne
    (halloc : s.arpAlloc = some slot) (hpending : s.Pending i) : i ≠ slot := by
  intro heq
  rw [heq] at hpending
  exact (arpAlloc_some halloc).2 hpending

theorem kept_arpIn (hpending : s.Pending slot) :
    (s.arpIn net pkt).arpcache slot = s.arpcache slot ∨
      (((s.arpIn net pkt).arpcache slot).arstate = .resolved ∧
        ((s.arpIn net pkt).arpcache slot).arpaddr =
          (s.arpcache slot).arpaddr) := by
  unfold Arp.arpIn
  dsimp only
  by_cases hother : pkt.arp_htype ≠ ARP_HTYPE ∨ pkt.arp_ptype ≠ ARP_PTYPE
  · rw [if_pos hother]
    exact Or.inl rfl
  · rw [if_neg hother]
    cases hfind : (s.hear pkt).find pkt.arp_sndpa with
    | some found =>
        dsimp only
        rw [arpcache_update]
        by_cases hne : slot = found
        · subst hne
          have hstate : ((s.hear pkt).arpcache slot).arstate = .pending :=
            hpending.2
          refine Or.inr ⟨?_, ?_⟩ <;> rw [Function.update_self]
          · dsimp only
            rw [if_pos hstate]
          · rfl
        · rw [Function.update_of_ne hne]
          exact Or.inl rfl
    | none =>
        dsimp only
        split_ifs
        · exact Or.inl rfl
        · exact Or.inl rfl
        · cases halloc : (s.hear pkt).arpAlloc with
          | none => exact Or.inl rfl
          | some free =>
              exact Or.inl (Function.update_of_ne (arpAlloc_ne halloc hpending) ..)

theorem kept_arpResolve {nxthop : Word} (hpending : s.Pending slot) :
    (s.arpResolve net pid nxthop).arpcache slot = s.arpcache slot := by
  unfold Arp.arpResolve
  dsimp only
  split_ifs
  · rfl
  · rfl
  · cases hfind : Arp.find { s with calls := s.calls + 1 } nxthop with
    | some i =>
        dsimp only
        split_ifs <;> rfl
    | none =>
        cases halloc : Arp.arpAlloc { s with calls := s.calls + 1 } with
        | none => rfl
        | some free => exact Function.update_of_ne (arpAlloc_ne halloc hpending) ..

theorem kept_step
    (hstep : arpStep net s action = some s') (hpending : s.Pending slot) :
    s'.arpcache slot = s.arpcache slot ∨
      ((s'.arpcache slot).arstate = .resolved ∧
        (s'.arpcache slot).arpaddr = (s.arpcache slot).arpaddr) ∨
      (s.GivesUp action slot ∧ (s'.arpcache slot).arstate = .free) := by
  cases action with
  | packet pkt =>
      cases hstep
      rcases @kept_arpIn net s slot pkt hpending with hsame | hresolved
      · exact Or.inl hsame
      · exact Or.inr (Or.inl hresolved)
  | resolve pid nxthop =>
      simp only [arpStep] at hstep
      split_ifs at hstep
      cases hstep
      exact Or.inl (kept_arpResolve hpending)
  | send pid msg =>
      cases hstep
      exact Or.inl (by rw [(send_frame msg).1])
  | resume pid =>
      obtain ⟨r, hresolving, rfl⟩ := Option.map_eq_some_iff.mp hstep
      unfold Arp.resume
      dsimp only
      split_ifs with htimeout
      · exact Or.inl rfl
      · by_cases hslot : slot = r.slot
        · subst hslot
          refine Or.inr (Or.inr ⟨⟨pid, r, rfl, hresolving, rfl, htimeout⟩, ?_⟩)
          show ((Function.update s.arpcache r.slot
            { s.arpcache r.slot with arstate := .free }) r.slot).arstate = .free
          rw [Function.update_self]
        · exact Or.inl (Function.update_of_ne hslot ..)
      · exact Or.inl rfl
      · exact Or.inl rfl

/-- In every run, with whatever messages, the entries are unique, the resolved
ones are fresh, and a pending one stays until a packet resolves it or a
resolver gives up. -/
theorem arp_cache_sound
    (hreach : Reach (arpStep net) (fun _ _ => True) arpInit s) :
    CacheLaw net s := by
  have hinv := hreach.invariant CacheInv
    ⟨fun i _ _ hi => absurd rfl hi.2.1, fun _ _ hstate => by cases hstate⟩
    fun _ _ _ h _ hstep => h.step hstep
  exact ⟨hinv.unique, hinv.fresh, fun _ _ hstep _ hpending =>
    kept_step hstep hpending⟩

end Cache

/-- The host's own configuration. -/
def host : Netdata := ⟨true, 5, 255, 0xffffffffffff⟩

def report (op : BitVec 16) (ip : Word) (mac : Mac) : Arppacket :=
  ⟨ARP_HTYPE, ARP_PTYPE, op, mac, ip, 5⟩

/-- A request from address 8 creates an entry; an address is asked for and
reported twice. -/
theorem arp_cache_sound_reports :
    ∃ s, Reach (arpStep host) (fun _ _ => True) arpInit s ∧
      (s.arpcache 1).arhaddr = 22 ∧ CacheLaw host s := by
  have hview : (run (fun s action => if True then arpStep host s action
      else none) arpInit
      [.packet (report 1 8 10), .resolve 3 9, .packet (report 2 9 20),
        .resume 3, .packet (report 2 9 22)]).map
        (fun s => (s.arpcache 1).arhaddr) = some 22 := by
    decide
  obtain ⟨s, hrun, hmac⟩ := Option.map_eq_some_iff.mp hview
  have hreach := Reach.run_checked _ .start hrun
  exact ⟨s, hreach, hmac, arp_cache_sound hreach⟩

/-! ## Resolution -/

/-- A success comes with an address that a packet has reported for the next
hop, and no pending entry is left over from a call that has failed. -/
structure ResolveLaw (net : Netdata) (s : Arp) : Prop where
  reported : ∀ a ∈ s.answers, a.status = OK → a.nxthop ≠ IP_BCAST →
    a.nxthop ≠ net.ipbcast → ∃ mac, a.mac = some mac ∧ (a.nxthop, mac) ∈ s.heard
  cleared : ∀ a ∈ s.answers, a.status ≠ OK → ∀ slot, s.Pending slot →
    s.creator slot ≠ a.call

/-- A resolver that takes its message for an answer finds the resolved entry
for its next hop in its slot, and one that gets `SYSERR` finds its slot
without its own pending entry. -/
def OwnEntry (s : Arp) : ArpAction → Prop
  | .resume pid => ∀ r ∈ s.resolving pid, s.wakeMsg pid ≠ TIMEOUT →
      if s.wakeMsg pid = SYSERR then
        ¬ ((s.arpcache r.slot).arstate = .pending ∧
          (s.arpcache r.slot).arpid = pid)
      else (s.arpcache r.slot).arstate = .resolved ∧
        (s.arpcache r.slot).arpaddr = r.nxthop
  | _ => True

instance (s : Arp) (action : ArpAction) : Decidable (OwnEntry s action) := by
  cases action <;> unfold OwnEntry <;> infer_instance

section Resolve

variable {net : Netdata} {s s' : Arp} {slot : ℕ} {pkt : Arppacket}
  {action : ArpAction} {pid : ℤ}

/-- What links pending entries, sleeping resolvers and finished calls. -/
structure ResolveInv (net : Netdata) (s : Arp) : Prop where
  known : ∀ slot < ARP_SIZ, (s.arpcache slot).arstate = .resolved →
    ((s.arpcache slot).arpaddr, (s.arpcache slot).arhaddr) ∈ s.heard
  owned : ∀ slot, s.Pending slot → ∃ r,
    s.resolving (s.arpcache slot).arpid = some r ∧ r.slot = slot ∧
      r.call = s.creator slot
  inside : ∀ pid r, s.resolving pid = some r →
    r.slot < ARP_SIZ ∧ r.call < s.calls
  apart : ∀ pid pid' r r', s.resolving pid = some r →
    s.resolving pid' = some r' → r.call = r'.call → pid = pid'
  ended : ∀ a ∈ s.answers, a.call < s.calls ∧
    ∀ pid r, s.resolving pid = some r → r.call ≠ a.call
  reported : ∀ a ∈ s.answers, a.status = OK → a.nxthop ≠ IP_BCAST →
    a.nxthop ≠ net.ipbcast → ∃ mac, a.mac = some mac ∧ (a.nxthop, mac) ∈ s.heard

theorem ResolveInv.law (h : ResolveInv net s) : ResolveLaw net s where
  reported := h.reported
  cleared a ha _ slot hpending := by
    obtain ⟨r, hresolving, -, hcall⟩ := h.owned slot hpending
    rw [← hcall]
    exact (h.ended a ha).2 _ r hresolving

/-- Entries change, but none comes to be pending. -/
structure EntriesStep (s s' : Arp) : Prop where
  resolving : s'.resolving = s.resolving
  calls : s'.calls = s.calls
  answers : s'.answers = s.answers
  creator : s'.creator = s.creator
  heard : ∀ r ∈ s.heard, r ∈ s'.heard
  entry : ∀ slot < ARP_SIZ,
    ((s'.arpcache slot).arstate = .pending → s'.arpcache slot = s.arpcache slot) ∧
    ((s'.arpcache slot).arstate = .resolved →
      s'.arpcache slot = s.arpcache slot ∨
        ((s'.arpcache slot).arpaddr, (s'.arpcache slot).arhaddr) ∈ s'.heard)

theorem ResolveInv.entries (h : ResolveInv net s) (hs : EntriesStep s s') :
    ResolveInv net s' where
  known slot hslot hstate := by
    rcases (hs.entry slot hslot).2 hstate with hsame | hknown
    · rw [hsame] at hstate ⊢
      exact hs.heard _ (h.known slot hslot hstate)
    · exact hknown
  owned slot hpending := by
    have hsame := (hs.entry slot hpending.1).1 hpending.2
    have hold : s.Pending slot := ⟨hpending.1, by rw [← hsame]; exact hpending.2⟩
    rw [hs.resolving, hs.creator, hsame]
    exact h.owned slot hold
  inside pid r hr := by
    rw [hs.resolving] at hr
    rw [hs.calls]
    exact h.inside pid r hr
  apart pid pid' r r' hr hr' := by
    rw [hs.resolving] at hr hr'
    exact h.apart pid pid' r r' hr hr'
  ended a ha := by
    rw [hs.answers] at ha
    rw [hs.calls, hs.resolving]
    exact h.ended a ha
  reported a ha hok hbcast hnet := by
    rw [hs.answers] at ha
    obtain ⟨mac, hmac, hheard⟩ := h.reported a ha hok hbcast hnet
    exact ⟨mac, hmac, hs.heard _ hheard⟩

theorem EntriesStep.same
    (hcache : s'.arpcache = s.arpcache) (hresolving : s'.resolving = s.resolving)
    (hcalls : s'.calls = s.calls) (hanswers : s'.answers = s.answers)
    (hcreator : s'.creator = s.creator) (hheard : ∀ r ∈ s.heard, r ∈ s'.heard) :
    EntriesStep s s' where
  resolving := hresolving
  calls := hcalls
  answers := hanswers
  creator := hcreator
  heard := hheard
  entry slot _ := ⟨fun _ => by rw [hcache], fun _ => Or.inl (by rw [hcache])⟩

theorem EntriesStep.send (msg : Word) : EntriesStep s (s.send pid msg) := by
  obtain ⟨hcache, -, hheard, hresolving, hcalls, hanswers, hcreator⟩ :=
    @send_frame s pid msg
  exact .same hcache hresolving hcalls hanswers hcreator fun r hr => by
    rwa [hheard]

theorem EntriesStep.free :
    EntriesStep s (s.setEntry slot { s.arpcache slot with arstate := .free }) where
  resolving := rfl
  calls := rfl
  answers := rfl
  creator := rfl
  heard _ hr := hr
  entry i _ := by
    by_cases hne : i = slot
    · subst hne
      rw [arpcache_setEntry_self]
      exact ⟨fun h => (by cases h), fun h => (by cases h)⟩
    · rw [arpcache_setEntry_of_ne _ hne]
      exact ⟨fun _ => rfl, fun _ => Or.inl rfl⟩

theorem mem_hear : (pkt.arp_sndpa, pkt.arp_sndha) ∈ (s.hear pkt).heard :=
  List.mem_append_right _ (List.mem_singleton.mpr rfl)

theorem EntriesStep.hear : EntriesStep s (s.hear pkt) :=
  .same rfl rfl rfl rfl rfl fun _ hr => List.mem_append_left _ hr

theorem EntriesStep.trans {s'' : Arp}
    (h : EntriesStep s s') (h' : EntriesStep s' s'') : EntriesStep s s'' where
  resolving := h'.resolving.trans h.resolving
  calls := h'.calls.trans h.calls
  answers := h'.answers.trans h.answers
  creator := h'.creator.trans h.creator
  heard r hr := h'.heard r (h.heard r hr)
  entry slot hslot := by
    obtain ⟨hpending, hresolved⟩ := h.entry slot hslot
    obtain ⟨hpending', hresolved'⟩ := h'.entry slot hslot
    constructor
    · intro hstate
      have hsame := hpending' hstate
      rw [hsame] at hstate ⊢
      exact hpending hstate
    · intro hstate
      rcases hresolved' hstate with hsame | hknown
      · rw [hsame] at hstate ⊢
        rcases hresolved hstate with hsame | hknown
        · exact Or.inl hsame
        · exact Or.inr (h'.heard _ hknown)
      · exact Or.inr hknown

theorem EntriesStep.update
    (hholds : s.Holds slot pkt.arp_sndpa) :
    EntriesStep (s.hear pkt) ((s.hear pkt).update slot pkt.arp_sndha) := by
  obtain ⟨-, hheard, hresolving, hcalls, hanswers, hcreator⟩ :=
    @update_frame (s.hear pkt) slot pkt.arp_sndha
  refine ⟨hresolving, hcalls, hanswers, hcreator, fun r hr => by rwa [hheard], ?_⟩
  intro i _
  rw [arpcache_update, hheard]
  by_cases hne : i = slot
  · subst hne
    rw [Function.update_self]
    constructor
    · intro hstate
      dsimp only at hstate
      split_ifs at hstate with hpending
      exact absurd hstate hpending
    · intro _
      refine Or.inr ?_
      dsimp only
      rw [show ((s.hear pkt).arpcache i).arpaddr = pkt.arp_sndpa from hholds.2.2]
      exact mem_hear
  · rw [Function.update_of_ne hne]
    exact ⟨fun _ => rfl, fun _ => Or.inl rfl⟩

theorem EntriesStep.createResolved
    {ip : Word} {mac : Mac} {reports : List Report} (hheard : (ip, mac) ∈ s.heard) :
    EntriesStep s (s.create slot ⟨.resolved, ip, 0, mac⟩ reports) where
  resolving := rfl
  calls := rfl
  answers := rfl
  creator := rfl
  heard _ hr := hr
  entry i _ := by
    by_cases hne : i = slot
    · subst hne
      rw [show (s.create i ⟨.resolved, ip, 0, mac⟩ reports).arpcache i =
        ⟨.resolved, ip, 0, mac⟩ from Function.update_self ..]
      exact ⟨fun h => (by cases h), fun _ => Or.inr hheard⟩
    · rw [show (s.create slot ⟨.resolved, ip, 0, mac⟩ reports).arpcache i =
        s.arpcache i from Function.update_of_ne hne ..]
      exact ⟨fun _ => rfl, fun _ => Or.inl rfl⟩

theorem EntriesStep.arpIn : EntriesStep s (s.arpIn net pkt) := by
  unfold Arp.arpIn
  dsimp only
  by_cases hother : pkt.arp_htype ≠ ARP_HTYPE ∨ pkt.arp_ptype ≠ ARP_PTYPE
  · rw [if_pos hother]
    exact .same rfl rfl rfl rfl rfl fun _ hr => hr
  · rw [if_neg hother]
    cases hfind : (s.hear pkt).find pkt.arp_sndpa with
    | some slot => exact EntriesStep.hear.trans (.update (find_some hfind))
    | none =>
        dsimp only
        split_ifs
        · exact .hear
        · exact .hear
        · cases (s.hear pkt).arpAlloc with
          | none => exact .hear
          | some slot => exact EntriesStep.hear.trans (.createResolved mem_hear)

/-- A call that does not sleep returns. -/
theorem ResolveInv.answer
    {nxthop status : Word} {mac : Option Mac} (h : ResolveInv net s)
    (hreported : status = OK → nxthop ≠ IP_BCAST → nxthop ≠ net.ipbcast →
      ∃ m, mac = some m ∧ (nxthop, m) ∈ s.heard) :
    ResolveInv net
      (Arp.answer { s with calls := s.calls + 1 } s.calls nxthop status mac) where
  known := h.known
  owned := h.owned
  inside pid r hr := by
    obtain ⟨hslot, hcall⟩ := h.inside pid r hr
    exact ⟨hslot, Nat.lt_succ_of_lt hcall⟩
  apart := h.apart
  ended a ha := by
    rcases List.mem_append.mp ha with hold | hnew
    · obtain ⟨hcall, hdone⟩ := h.ended a hold
      exact ⟨Nat.lt_succ_of_lt hcall, hdone⟩
    · rw [List.mem_singleton.mp hnew]
      exact ⟨Nat.lt_succ_self _, fun pid r hr => (h.inside pid r hr).2.ne⟩
  reported a ha := by
    rcases List.mem_append.mp ha with hold | hnew
    · exact h.reported a hold
    · rw [List.mem_singleton.mp hnew]
      exact hreported

/-- A call that has slept returns, and its slot holds no pending entry of its
own. -/
theorem ResolveInv.finish
    {r : Resolving} {status : Word} {mac : Option Mac} (h : ResolveInv net s)
    (hresolving : s.resolving pid = some r)
    (hgone : ¬ ((s.arpcache r.slot).arstate = .pending ∧
      (s.arpcache r.slot).arpid = pid))
    (hreported : status = OK → r.nxthop ≠ IP_BCAST → r.nxthop ≠ net.ipbcast →
      ∃ m, mac = some m ∧ (r.nxthop, m) ∈ s.heard) :
    ResolveInv net (s.finish pid r status mac) := by
  have hold : ∀ p r', Function.update s.resolving pid none p = some r' →
      p ≠ pid ∧ s.resolving p = some r' := by
    intro p r' hp
    by_cases hne : p = pid
    · rw [hne, Function.update_self] at hp
      cases hp
    · rw [Function.update_of_ne hne] at hp
      exact ⟨hne, hp⟩
  constructor
  · exact h.known
  · intro slot hpending
    obtain ⟨r', hr', hslot, hcall⟩ := h.owned slot hpending
    refine ⟨r', ?_, hslot, hcall⟩
    have hne : (s.arpcache slot).arpid ≠ pid := by
      intro hpid
      rw [hpid, hresolving, Option.some.injEq] at hr'
      subst hr'
      subst hslot
      exact hgone ⟨hpending.2, hpid⟩
    show Function.update s.resolving pid none (s.arpcache slot).arpid = some r'
    rw [Function.update_of_ne hne]
    exact hr'
  · exact fun p r' hp => h.inside p r' (hold p r' hp).2
  · exact fun p p' r₁ r₂ hp hp' =>
      h.apart p p' r₁ r₂ (hold p r₁ hp).2 (hold p' r₂ hp').2
  · intro a ha
    rcases List.mem_append.mp ha with hin | hnew
    · obtain ⟨hcall, hdone⟩ := h.ended a hin
      exact ⟨hcall, fun p r' hp => hdone p r' (hold p r' hp).2⟩
    · rw [List.mem_singleton.mp hnew]
      refine ⟨(h.inside pid r hresolving).2, fun p r' hp hcall => ?_⟩
      obtain ⟨hne, hp⟩ := hold p r' hp
      exact hne (h.apart p pid r' r hp hresolving hcall)
  · intro a ha
    rcases List.mem_append.mp ha with hin | hnew
    · exact h.reported a hin
    · rw [List.mem_singleton.mp hnew]
      exact hreported

/-- A call creates a pending entry and sleeps. -/
theorem ResolveInv.block
    {nxthop : Word} (h : ResolveInv net s) (hidle : s.resolving pid = none)
    (hslot : slot < ARP_SIZ) (inbox : ℤ → Option Word) :
    ResolveInv net
      { s.create slot ⟨.pending, nxthop, pid, 0⟩ [] with
        calls := s.calls + 1
        creator := Function.update s.creator slot s.calls
        inbox := inbox
        resolving := Function.update s.resolving pid
          (some ⟨s.calls, nxthop, slot, 0⟩) } := by
  have hself : (Function.update s.arpcache slot ⟨.pending, nxthop, pid, 0⟩) slot =
      ⟨.pending, nxthop, pid, 0⟩ := Function.update_self ..
  have hother : ∀ i ≠ slot,
      (Function.update s.arpcache slot ⟨.pending, nxthop, pid, 0⟩) i =
        s.arpcache i := fun i hne => Function.update_of_ne hne ..
  have hcases : ∀ p r, Function.update s.resolving pid
      (some ⟨s.calls, nxthop, slot, 0⟩) p = some r →
      (p = pid ∧ r = ⟨s.calls, nxthop, slot, 0⟩) ∨ s.resolving p = some r := by
    intro p r hp
    by_cases hne : p = pid
    · rw [hne, Function.update_self, Option.some.injEq] at hp
      exact Or.inl ⟨hne, hp.symm⟩
    · rw [Function.update_of_ne hne] at hp
      exact Or.inr hp
  constructor
  · intro i hi hstate
    change ((Function.update s.arpcache slot ⟨.pending, nxthop, pid, 0⟩) i).arstate
      = _ at hstate
    show (((Function.update s.arpcache slot ⟨.pending, nxthop, pid, 0⟩) i).arpaddr,
      ((Function.update s.arpcache slot ⟨.pending, nxthop, pid, 0⟩) i).arhaddr) ∈ _
    by_cases hne : i = slot
    · rw [hne, hself] at hstate
      cases hstate
    · rw [hother i hne] at hstate ⊢
      exact h.known i hi hstate
  · intro i ⟨hi, hstate⟩
    change ((Function.update s.arpcache slot ⟨.pending, nxthop, pid, 0⟩) i).arstate
      = _ at hstate
    show ∃ r, Function.update s.resolving pid (some ⟨s.calls, nxthop, slot, 0⟩)
      ((Function.update s.arpcache slot ⟨.pending, nxthop, pid, 0⟩) i).arpid =
        some r ∧ r.slot = i ∧ r.call = Function.update s.creator slot s.calls i
    by_cases hne : i = slot
    · rw [hne, hself]
      exact ⟨_, Function.update_self .., rfl, by rw [Function.update_self]⟩
    · rw [hother i hne] at hstate ⊢
      rw [Function.update_of_ne hne]
      obtain ⟨r, hr, hrslot, hcall⟩ := h.owned i ⟨hi, hstate⟩
      have hpid : (s.arpcache i).arpid ≠ pid := by
        intro heq
        rw [heq, hidle] at hr
        cases hr
      rw [Function.update_of_ne hpid]
      exact ⟨r, hr, hrslot, hcall⟩
  · intro p r hp
    rcases hcases p r hp with ⟨-, rfl⟩ | hp
    · exact ⟨hslot, Nat.lt_succ_self _⟩
    · obtain ⟨hrslot, hcall⟩ := h.inside p r hp
      exact ⟨hrslot, Nat.lt_succ_of_lt hcall⟩
  · intro p p' r r' hp hp' hcall
    rcases hcases p r hp with ⟨hpid, rfl⟩ | hold <;>
      rcases hcases p' r' hp' with ⟨hpid', rfl⟩ | hold'
    · rw [hpid, hpid']
    · exact absurd hcall (h.inside p' r' hold').2.ne'
    · exact absurd hcall (h.inside p r hold).2.ne
    · exact h.apart p p' r r' hold hold' hcall
  · intro a ha
    obtain ⟨hcall, hdone⟩ := h.ended a ha
    refine ⟨Nat.lt_succ_of_lt hcall, fun p r hp => ?_⟩
    rcases hcases p r hp with ⟨-, rfl⟩ | hp
    · exact hcall.ne'
    · exact hdone p r hp
  · exact h.reported

theorem ResolveInv.arpResolve
    (h : ResolveInv net s) (hidle : s.resolving pid = none) (nxthop : Word) :
    ResolveInv net (s.arpResolve net pid nxthop) := by
  unfold Arp.arpResolve
  dsimp only
  split_ifs with hbcast hnet
  · exact h.answer fun _ hne => absurd hbcast hne
  · exact h.answer fun _ _ hne => absurd hnet hne
  · cases hfind : Arp.find { s with calls := s.calls + 1 } nxthop with
    | some i =>
        obtain ⟨hi, -, hip⟩ : s.Holds i nxthop := find_some hfind
        dsimp only
        split_ifs with hresolved
        · refine h.answer fun _ _ _ => ⟨_, rfl, ?_⟩
          rw [← hip]
          exact h.known i hi hresolved
        · exact h.answer fun hok => absurd hok (by decide)
    | none =>
        cases halloc : Arp.arpAlloc { s with calls := s.calls + 1 } with
        | none => exact h.answer fun hok => absurd hok (by decide)
        | some slot => exact h.block hidle (arpAlloc_some halloc).1 _

theorem ResolveInv.retry
    {r : Resolving} {n : ℕ} (h : ResolveInv net s)
    (hresolving : s.resolving pid = some r) :
    ResolveInv net { s with
      resolving := Function.update s.resolving pid
        (some { r with tries := n }) } := by
  have hcases : ∀ p r', Function.update s.resolving pid
      (some { r with tries := n }) p = some r' →
      ∃ r₀, s.resolving p = some r₀ ∧ r₀.slot = r'.slot ∧ r₀.call = r'.call := by
    intro p r' hp
    by_cases hne : p = pid
    · rw [hne, Function.update_self, Option.some.injEq] at hp
      subst hp
      exact ⟨r, hne ▸ hresolving, rfl, rfl⟩
    · rw [Function.update_of_ne hne] at hp
      exact ⟨r', hp, rfl, rfl⟩
  constructor
  · exact h.known
  · intro slot hpending
    obtain ⟨r', hr', hslot, hcall⟩ := h.owned slot hpending
    show ∃ r₁, Function.update s.resolving pid (some { r with tries := n })
      (s.arpcache slot).arpid = some r₁ ∧ r₁.slot = slot ∧
        r₁.call = s.creator slot
    by_cases hpid : (s.arpcache slot).arpid = pid
    · rw [hpid, hresolving, Option.some.injEq] at hr'
      subst hr'
      rw [hpid]
      exact ⟨_, Function.update_self .., hslot, hcall⟩
    · rw [Function.update_of_ne hpid]
      exact ⟨r', hr', hslot, hcall⟩
  · intro p r' hp
    obtain ⟨r₀, hr₀, hslot, hcall⟩ := hcases p r' hp
    rw [← hslot, ← hcall]
    exact h.inside p r₀ hr₀
  · intro p p' r₁ r₂ hp hp' heq
    obtain ⟨r₀, hr₀, -, hcall⟩ := hcases p r₁ hp
    obtain ⟨r₀', hr₀', -, hcall'⟩ := hcases p' r₂ hp'
    exact h.apart p p' r₀ r₀' hr₀ hr₀' (by rw [hcall, hcall', heq])
  · intro a ha
    obtain ⟨hcall, hdone⟩ := h.ended a ha
    refine ⟨hcall, fun p r' hp => ?_⟩
    obtain ⟨r₀, hr₀, -, heq⟩ := hcases p r' hp
    rw [← heq]
    exact hdone p r₀ hr₀
  · exact h.reported

theorem ResolveInv.resume
    {r : Resolving} (h : ResolveInv net s) (hown : OwnEntry s (.resume pid))
    (hresolving : s.resolving pid = some r) :
    ResolveInv net (s.resume pid r) := by
  have hread : ResolveInv net
      { s with inbox := Function.update s.inbox pid none } :=
    h.entries (.same rfl rfl rfl rfl rfl fun _ hr => hr)
  have hown := hown r hresolving
  unfold Arp.resume
  dsimp only
  split_ifs with htimeout htries hfailed
  · exact hread.retry hresolving
  · refine (hread.entries (@EntriesStep.free _ r.slot)).finish hresolving ?_
      fun hok => absurd hok (by decide)
    rw [arpcache_setEntry_self]
    exact fun hpending => by cases hpending.1
  · have hgone := hown htimeout
    rw [if_pos hfailed] at hgone
    exact hread.finish hresolving hgone fun hok => absurd hok (by decide)
  · have hresolved := hown htimeout
    rw [if_neg hfailed] at hresolved
    obtain ⟨hstate, haddr⟩ := hresolved
    refine hread.finish hresolving ?_ fun _ _ _ => ⟨_, rfl, ?_⟩
    · intro hpending
      rw [show (s.arpcache r.slot).arstate = .pending from hpending.1] at hstate
      cases hstate
    · rw [← haddr]
      exact h.known r.slot (h.inside pid r hresolving).1 hstate

theorem ResolveInv.step
    (h : ResolveInv net s) (hown : OwnEntry s action)
    (hstep : arpStep net s action = some s') : ResolveInv net s' := by
  cases action with
  | packet pkt =>
      cases hstep
      exact h.entries .arpIn
  | resolve pid nxthop =>
      simp only [arpStep] at hstep
      split_ifs at hstep with hidle
      cases hstep
      exact h.arpResolve (by simpa using hidle) nxthop
  | send pid msg =>
      cases hstep
      exact h.entries (.send msg)
  | resume pid =>
      obtain ⟨r, hresolving, rfl⟩ := Option.map_eq_some_iff.mp hstep
      exact h.resume hown hresolving

/-- In every run in which a resolver that is woken finds in its slot what the
message tells it, successes carry reported addresses and failures leave no
entry. -/
theorem arp_resolutions_sound
    (hreach : Reach (arpStep net) OwnEntry arpInit s) : ResolveLaw net s := by
  have hstart : ResolveInv net arpInit := by
    constructor
    · exact fun _ _ hstate => by cases hstate
    · exact fun _ hpending => by cases hpending.2
    · exact fun _ _ hr => by cases hr
    · exact fun _ _ _ _ hr => by cases hr
    · exact fun _ ha => absurd ha List.not_mem_nil
    · exact fun _ ha => absurd ha List.not_mem_nil
  have hinv := hreach.invariant (ResolveInv net) hstart
    fun _ _ _ h hown hstep => h.step hown hstep
  exact hinv.law

end Resolve

/-- One address is reported in time, another one is never reported. -/
theorem arp_resolutions_sound_timeout :
    ∃ s, Reach (arpStep host) OwnEntry arpInit s ∧
      s.answers.map (fun a => (a.nxthop, a.status)) = [(9, OK), (7, TIMEOUT)] ∧
      ResolveLaw host s := by
  have hview : (run (fun s action => if OwnEntry s action then
        arpStep host s action else none) arpInit
      [.resolve 3 9, .packet (report 2 9 20), .resume 3, .resolve 3 7, .resume 3,
        .resume 3, .resume 3]).map
        (fun s => s.answers.map fun a => (a.nxthop, a.status)) =
      some [(9, OK), (7, TIMEOUT)] := by
    decide
  obtain ⟨s, hrun, hanswers⟩ := Option.map_eq_some_iff.mp hview
  have hreach := Reach.run_checked _ .start hrun
  exact ⟨s, hreach, hanswers, arp_resolutions_sound hreach⟩

/-- A message of an unrelated process makes a resolver return the zeros of its
pending entry. -/
theorem stray_message_resolves :
    ¬ ∀ s, Reach (arpStep host) (fun _ _ => True) arpInit s →
      ResolveLaw host s := by
  intro hlaw
  have hview : (run (fun s action => if True then arpStep host s action
      else none) arpInit [.resolve 3 9, .send 3 77, .resume 3]).map
        (fun s => (s.answers.map fun a => (a.nxthop, a.status), s.heard)) =
      some ([(9, OK)], []) := by
    decide
  obtain ⟨s, hrun, hanswers⟩ := Option.map_eq_some_iff.mp hview
  rw [Prod.mk.injEq] at hanswers
  obtain ⟨a, ha, heq⟩ := List.mem_map.mp
    (show (9, OK) ∈ s.answers.map fun a => (a.nxthop, a.status) by
      rw [hanswers.1]; exact List.mem_singleton.mpr rfl)
  rw [Prod.mk.injEq] at heq
  obtain ⟨mac, -, hheard⟩ := (hlaw s (Reach.run_checked _ .start hrun)).reported
    a ha heq.2 (by rw [heq.1]; decide) (by rw [heq.1]; decide)
  rw [hanswers.2] at hheard
  exact absurd hheard List.not_mem_nil

end Xinu.ArpCache
