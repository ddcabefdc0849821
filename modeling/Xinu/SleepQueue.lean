import Xinu.DeltaList
import Xinu.PriorityLaw

/-!
# The sleep queue

The sleep queue is a list of differences, and the clock charges each tick to
its first process.  When that process has no time left, because it came with a
wait of zero, the tick is lost for the others.  While this does not happen,
every sleeper is made ready by exactly the tick it asked for.
-/

namespace Xinu

open ByteMemory LinkedTable Placement TransitionSystem DeltaList Kernel

/-! ## What the log says about a sleeper -/

/-- The delay a sleeping process asked for and the ticks since then. -/
def timer (p : ℤ) : List Event → Option (ℤ × ℤ)
  | [] => none
  | .slept x delay :: log => if x = p then some (delay, 0) else timer p log
  | .ticked :: log => (timer p log).map fun r => (r.1, r.2 + 1)
  | .expired x :: log | .unslept x :: log =>
      if x = p then none else timer p log
  | _ :: log => timer p log

/-- Every sleeper that has expired did so at the tick it asked for; a delay of
zero ends at the next tick. -/
def Timely : List Event → Prop
  | [] => True
  | .expired p :: log =>
      (∃ delay, timer p log = some (delay, max delay 1)) ∧ Timely log
  | _ :: log => Timely log

/-- The event is about the clock or a sleeper. -/
def Timing : Event → Prop
  | .slept _ _ | .ticked | .expired _ | .unslept _ => True
  | _ => False

section Replay

variable {p : ℤ} {log w later earlier : List Event}

theorem timer_quiet (hquiet : ∀ e ∈ w, ¬ Timing e) :
    timer p (w ++ log) = timer p log ∧
      (Timely log → Timely (w ++ log)) := by
  induction w with
  | nil => exact ⟨rfl, id⟩
  | cons e w ih =>
      have he := hquiet e (by simp)
      obtain ⟨htimer, htimely⟩ := ih fun x hx => hquiet x (by simp [hx])
      rw [List.cons_append]
      cases e <;> first
        | exact absurd trivial he
        | exact ⟨htimer, htimely⟩

theorem timely_append (h : Timely (later ++ log)) : Timely log := by
  induction later with
  | nil => exact h
  | cons e later ih =>
      cases e <;> first
        | exact ih h.2
        | exact ih h

theorem timely_expired (h : Timely (later ++ .expired p :: earlier)) :
    ∃ delay, timer p earlier = some (delay, max delay 1) :=
  (timely_append h).1

/-- Processes that expire together all expire at the tick before. -/
theorem timer_gone {gone : List ℤ} (hp : p ∉ gone) :
    timer p ((gone.map Event.expired).reverse ++ log) = timer p log := by
  induction gone using List.reverseRecOn with
  | nil => rfl
  | append_singleton gone x ih =>
      have hx : x ≠ p := by
        rintro rfl
        exact hp (by simp)
      rw [List.map_append, List.reverse_append]
      show timer p (.expired x :: ((gone.map Event.expired).reverse ++ log)) = _
      rw [timer, if_neg hx, ih fun hmem => hp (by simp [hmem])]

theorem timely_gone
    {gone : List ℤ} (hnodup : gone.Nodup)
    (hgone : ∀ x ∈ gone, ∃ delay, timer x log = some (delay, max delay 1))
    (h : Timely log) : Timely ((gone.map Event.expired).reverse ++ log) := by
  induction gone using List.reverseRecOn with
  | nil => exact h
  | append_singleton gone x ih =>
      rw [List.nodup_append] at hnodup
      obtain ⟨hfront, -, hdisjoint⟩ := hnodup
      have hx : x ∉ gone := fun hmem => hdisjoint x hmem x (by simp) rfl
      rw [List.map_append, List.reverse_append]
      refine ⟨?_, ih hfront fun y hy => hgone y (by simp [hy])⟩
      show ∃ delay, timer x ((gone.map Event.expired).reverse ++ log) = _
      rw [timer_gone hx]
      exact hgone x (by simp)

end Replay

/-! ## The queue operations as splices -/

section Splices

variable {keys : ℤ → ℤ} {key p : ℤ} {l l' : List ℤ}

theorem deltaSplit_sum :
    ((QueueLists.deltaSplit keys key l).1.map keys).sum +
      (QueueLists.deltaSplit keys key l).2.1 = key := by
  induction l generalizing key with
  | nil => simp [QueueLists.deltaSplit]
  | cons x l ih =>
      unfold QueueLists.deltaSplit
      split_ifs with hle
      · have hrest := @ih (key - keys x)
        simp only [List.map_cons, List.sum_cons]
        omega
      · simp

theorem deltaSplit_nonneg (hkey : 0 ≤ key) :
    0 ≤ (QueueLists.deltaSplit keys key l).2.1 := by
  induction l generalizing key with
  | nil => exact hkey
  | cons x l ih =>
      unfold QueueLists.deltaSplit
      split_ifs with hle
      · exact ih (by omega)
      · exact hkey

theorem deltaSplit_head :
    ∀ y ∈ (QueueLists.deltaSplit keys key l).2.2.head?,
      (QueueLists.deltaSplit keys key l).2.1 < keys y := by
  induction l generalizing key with
  | nil => simp [QueueLists.deltaSplit]
  | cons x l ih =>
      unfold QueueLists.deltaSplit
      split_ifs with hle
      · exact ih
      · intro y hy
        rw [List.head?_cons, Option.mem_some_iff] at hy
        rw [← hy]
        exact not_le.mp hle

/-- `insertd` charges the process behind the new one. -/
theorem spliced_chargeHead
    (hp : p ∉ l ++ l') (hnodup : (l ++ l').Nodup) :
    Spliced keys (QueueLists.chargeHead key (Function.update keys p key) l') p
      l l' := by
  have hkeys : ∀ {y}, y ∈ l ++ l' → y ∉ l'.head? →
      QueueLists.chargeHead key (Function.update keys p key) l' y = keys y := by
    intro y hy hhead
    have hne : y ≠ p := fun heq => hp (heq ▸ hy)
    cases l' with
    | nil => exact Function.update_of_ne hne _ _
    | cons z l' =>
        have hz : y ≠ z := by
          rintro rfl
          exact hhead (by simp)
        rw [QueueLists.chargeHead, Function.update_of_ne hz,
          Function.update_of_ne hne]
  rw [List.nodup_append] at hnodup
  obtain ⟨-, hback, hdisjoint⟩ := hnodup
  constructor
  · intro y hy
    refine hkeys (List.mem_append_left _ hy) fun hhead => ?_
    exact hdisjoint y hy y (List.mem_of_head? hhead) rfl
  · intro y hy
    cases l' with
    | nil => cases hy
    | cons z l' =>
        rw [List.head?_cons, Option.mem_some_iff] at hy
        subst hy
        have hz : z ≠ p := by
          rintro rfl
          exact hp (by simp)
        rw [QueueLists.chargeHead, Function.update_self,
          Function.update_of_ne hz.symm, Function.update_self,
          Function.update_of_ne hz]
        ring
  · intro y hy
    refine hkeys (List.mem_append_right _ (List.mem_of_mem_tail hy))
      fun hhead => ?_
    cases l' with
    | nil => cases hy
    | cons z l' =>
        rw [List.head?_cons, Option.mem_some_iff] at hhead
        subst hhead
        exact (List.nodup_cons.mp hback).1 hy

theorem follower_append (hp : p ∉ l) :
    QueueLists.follower p (l ++ p :: l') = l'.head? := by
  induction l with
  | nil =>
      cases l' with
      | nil => rfl
      | cons y l' => simp [QueueLists.follower]
  | cons x l ih =>
      have hx : x ≠ p := fun heq => hp (by simp [heq])
      have hrest := ih fun hmem => hp (by simp [hmem])
      cases l with
      | nil => simp_all [QueueLists.follower]
      | cons y l => simp_all [QueueLists.follower]

/-- `unsleep` credits the process behind the one that leaves. -/
theorem spliced_creditNext
    {L : QueueLists} {q : ℤ} (hsplit : L.lists q = l ++ p :: l')
    (hnodup : (l ++ p :: l').Nodup) :
    Spliced (L.creditNext p q).keys L.keys p l l' := by
  obtain ⟨-, hback, hdisjoint⟩ := List.nodup_append.mp hnodup
  have hp : p ∉ l := fun hmem => hdisjoint p hmem p (by simp) rfl
  have hfollow : QueueLists.follower p (L.lists q) = l'.head? := by
    rw [hsplit, follower_append hp]
  unfold QueueLists.creditNext
  rw [hfollow]
  cases l' with
  | nil => exact ⟨fun _ _ => rfl, by simp, by simp⟩
  | cons z l' =>
      have hz : z ∉ l' :=
        (List.nodup_cons.mp (List.nodup_cons.mp hback).2).1
      constructor
      · intro y hy
        have hne : y ≠ z := by
          rintro rfl
          exact hdisjoint y hy y (by simp) rfl
        exact (Function.update_of_ne hne _ _).symm
      · intro y hy
        rw [List.head?_cons, Option.mem_some_iff] at hy
        subst hy
        show Function.update L.keys z (L.keys z + L.keys p) z = _
        rw [Function.update_self]
        ring
      · intro y hy
        have hne : y ≠ z := by
          rintro rfl
          exact hz hy
        exact (Function.update_of_ne hne _ _).symm

end Splices

/-! ## The invariant -/

/-- Every sleeper has as much time left as it asked for less the ticks since,
and its time is not yet up. -/
structure SleepInv (a : Kernel QueueLists) : Prop where
  sleeper : ∀ {p}, p ∈ a.lists SLEEPQ → ∃ delay ticks,
    timer p a.log = some (delay, ticks) ∧ 0 ≤ ticks ∧ ticks < max delay 1 ∧
      dueIn a.key p (a.lists SLEEPQ) = delay - ticks
  keys : ∀ {p}, p ∈ a.lists SLEEPQ → 0 ≤ a.key p
  timely : Timely a.log

section Invariant

variable {action : Action} {a b c : Kernel QueueLists} {p : ℤ}
variable {w : List Event}

/-- Moves that leave the sleep queue alone. -/
theorem SleepInv.same
    (h : SleepInv b) (hlists : c.lists SLEEPQ = b.lists SLEEPQ)
    (hkeys : ∀ p ∈ b.lists SLEEPQ, c.key p = b.key p)
    (hlog : c.log = w ++ b.log) (hquiet : ∀ e ∈ w, ¬ Timing e) :
    SleepInv c := by
  constructor
  · intro p hp
    rw [hlists] at hp
    obtain ⟨delay, ticks, htimer, hpos, hlt, hdue⟩ := h.sleeper hp
    refine ⟨delay, ticks, ?_, hpos, hlt, ?_⟩
    · rw [hlog, (timer_quiet hquiet).1, htimer]
    · rw [hlists, dueIn_congr hkeys, hdue]
  · intro p hp
    rw [hlists] at hp
    rw [hkeys p hp]
    exact h.keys hp
  · rw [hlog]
    exact (timer_quiet (p := 0) hquiet).2 h.timely

theorem SleepInv.queues
    (h : SleepInv b) (hqueues : c.queues = b.queues)
    (hlog : c.log = w ++ b.log) (hquiet : ∀ e ∈ w, ¬ Timing e) :
    SleepInv c := by
  refine h.same ?_ (fun p _ => ?_) hlog hquiet
  · unfold Kernel.lists
    rw [hqueues]
  · unfold Kernel.key
    rw [hqueues]

theorem not_timing_nil : ∀ e ∈ ([] : List Event), ¬ Timing e := by simp

theorem SleepInv.enlist (h : SleepInv b) (hp : p ∉ b.lists SLEEPQ) :
    SleepInv (b.enlist p) := by
  refine h.same (lists_enlist_of_ne b p readyq_ne_sleepq.symm) ?_ (w := [])
    rfl not_timing_nil
  intro x hx
  have hne : x ≠ p := fun heq => hp (heq ▸ hx)
  exact Function.update_of_ne hne _ _

theorem Queued.not_sleeping
    (hq : Queued b) (hsleep : b.state p ≠ .sleep)
    (hrectim : b.state p ≠ .rectim) : p ∉ b.lists SLEEPQ := by
  rw [hq.mem_sleepq]
  exact fun hor => hor.elim hsleep hrectim

theorem SleepInv.unlink (h : SleepInv b) (hp : p ∉ b.lists SLEEPQ) :
    SleepInv (b.unlink p) :=
  h.same (List.erase_of_not_mem hp) (fun _ _ => rfl) (w := []) rfl
    not_timing_nil

theorem SleepInv.delay
    {ticks : ℤ} (s : PrState) (h : SleepInv b) (hq : Queued b)
    (hp : p ∉ b.lists SLEEPQ) (hpos : 0 ≤ ticks) :
    SleepInv (b.delay p ticks s) := by
  let r := QueueLists.deltaSplit b.queues.keys ticks (b.lists SLEEPQ)
  have hsplit : b.lists SLEEPQ = r.1 ++ r.2.2 := deltaSplit_append _ _ _
  have hnodup : (b.lists SLEEPQ).Nodup := hq.placed.nodup SLEEPQ
  have hlist : (b.delay p ticks s).lists SLEEPQ = r.1 ++ p :: r.2.2 :=
    Function.update_self SLEEPQ _ b.queues.lists
  have hspliced : Spliced b.key (b.delay p ticks s).key p r.1 r.2.2 :=
    spliced_chargeHead (hsplit ▸ hp) (hsplit ▸ hnodup)
  have hself : (b.delay p ticks s).key p = r.2.1 := by
    show QueueLists.chargeHead r.2.1
      (Function.update b.queues.keys p r.2.1) r.2.2 p = r.2.1
    cases hback : r.2.2 with
    | nil => exact Function.update_self _ _ _
    | cons y l =>
        have hy : p ≠ y := by
          rintro rfl
          exact hp (by rw [hsplit, hback]; simp)
        rw [QueueLists.chargeHead, Function.update_of_ne hy,
          Function.update_self]
  have hp₁ : p ∉ r.1 := fun hmem =>
    hp (by rw [hsplit]; exact List.mem_append_left _ hmem)
  have hmem : ∀ {x}, x ≠ p → x ∈ (b.delay p ticks s).lists SLEEPQ →
      x ∈ b.lists SLEEPQ := by
    intro x hx hx'
    rw [hlist] at hx'
    rw [hsplit]
    simp only [List.mem_append, List.mem_cons] at hx' ⊢
    tauto
  constructor
  · intro x hx
    by_cases hxp : x = p
    · subst hxp
      refine ⟨ticks, 0, ?_, le_refl 0, by omega, ?_⟩
      · show timer x (.slept x ticks :: b.log) = _
        rw [timer, if_pos rfl]
      · rw [hlist, hspliced.dueIn_self hp₁, hself, sub_zero]
        exact deltaSplit_sum
    · obtain ⟨delay, n, htimer, hn, hlt, hdue⟩ := h.sleeper (hmem hxp hx)
      refine ⟨delay, n, ?_, hn, hlt, ?_⟩
      · show timer x (.slept p ticks :: b.log) = _
        rw [timer, if_neg (Ne.symm hxp), htimer]
      · rw [hlist, hspliced.dueIn_eq hxp (hsplit ▸ hmem hxp hx), ← hsplit, hdue]
  · intro x hx
    by_cases hxp : x = p
    · rw [hxp, hself]
      exact deltaSplit_nonneg hpos
    · have hold := h.keys (hmem hxp hx)
      have hx' := hmem hxp hx
      rw [hsplit] at hx'
      by_cases hfront : x ∈ r.1
      · rw [hspliced.before x hfront]
        exact hold
      · have hback := (List.mem_append.mp hx').resolve_left hfront
        cases hcons : r.2.2 with
        | nil => rw [hcons] at hback; cases hback
        | cons y l =>
            rw [hcons] at hback
            rcases List.mem_cons.mp hback with rfl | hrest
            · have hlt : r.2.1 < b.key x :=
                deltaSplit_head x (by rw [show _ = r.2.2 from rfl, hcons]; simp)
              have hcharge := hspliced.behind x (by simp [hcons])
              rw [hself] at hcharge
              omega
            · rw [hspliced.after x (by simp [hcons, hrest])]
              exact hold
  · exact h.timely

theorem SleepInv.unsleepEarly
    (h : SleepInv b) (hq : Queued b) (hp : p ∈ b.lists SLEEPQ) :
    SleepInv (b.unsleepEarly p) := by
  have hnodup : (b.lists SLEEPQ).Nodup := hq.placed.nodup SLEEPQ
  obtain ⟨l, l', hsplit⟩ := List.append_of_mem hp
  have hspliced : Spliced (b.unsleepEarly p).key b.key p l l' :=
    spliced_creditNext hsplit (hsplit ▸ hnodup)
  have hp₁ : p ∉ l := by
    rw [hsplit] at hnodup
    exact fun hmem => (List.nodup_append.mp hnodup).2.2 p hmem p (by simp) rfl
  have hlist : (b.unsleepEarly p).lists SLEEPQ = l ++ l' := by
    show ((b.queues.creditNext p SLEEPQ).lists SLEEPQ).erase p = _
    rw [lists_creditNext, show b.queues.lists SLEEPQ = _ from hsplit,
      List.erase_append_right _ hp₁, List.erase_cons_head]
  have hmem : ∀ {x}, x ∈ l ++ l' → x ∈ b.lists SLEEPQ ∧ x ≠ p := by
    intro x hx
    rw [hsplit] at hnodup ⊢
    refine ⟨?_, ?_⟩
    · simp only [List.mem_append, List.mem_cons] at hx ⊢
      tauto
    · rintro rfl
      obtain ⟨-, hback, -⟩ := List.nodup_append.mp hnodup
      rcases List.mem_append.mp hx with hx | hx
      · exact hp₁ hx
      · exact (List.nodup_cons.mp hback).1 hx
  constructor
  · intro x hx
    rw [hlist] at hx
    obtain ⟨hx', hne⟩ := hmem hx
    obtain ⟨delay, ticks, htimer, hpos, hlt, hdue⟩ := h.sleeper hx'
    refine ⟨delay, ticks, ?_, hpos, hlt, ?_⟩
    · show timer x (.unslept p :: b.log) = _
      rw [timer, if_neg hne.symm, htimer]
    · rw [hlist, ← hspliced.dueIn_eq hne hx, ← hsplit, hdue]
  · intro x hx
    rw [hlist] at hx
    have hold := h.keys (hmem hx).1
    by_cases hfront : x ∈ l
    · rw [← hspliced.before x hfront]
      exact hold
    · have hback := (List.mem_append.mp hx).resolve_left hfront
      cases l' with
      | nil => cases hback
      | cons y l' =>
          rcases List.mem_cons.mp hback with rfl | hrest
          · have hcredit := hspliced.behind x (by simp)
            have hkey := h.keys hp
            omega
          · rw [← hspliced.after x (by simp [hrest])]
            exact hold
  · exact h.timely

theorem SleepInv.setFree (h : SleepInv b) (v : ℤ) : SleepInv (b.setFree v) :=
  h.queues rfl (w := []) rfl not_timing_nil

theorem SleepInv.bury (h : SleepInv b) (hq : Queued b) (v : ℤ) :
    SleepInv (b.bury v) := by
  unfold Kernel.bury
  split
  case h_1 hsleep =>
      exact (h.unsleepEarly hq (hq.mem_sleepq.mpr (Or.inl hsleep))).setFree v
  case h_2 hrectim =>
      exact (h.unsleepEarly hq (hq.mem_sleepq.mpr (Or.inr hrectim))).setFree v
  case h_3 hwait =>
      have hbump : SleepInv (b.bumpCount (b.proctab v).prsem 1) :=
        h.queues rfl (w := []) rfl not_timing_nil
      have hnote : SleepInv (((b.bumpCount (b.proctab v).prsem 1).unlink v).note
          (.withdrawn (b.proctab v).prsem v)) :=
        (hbump.unlink (hq.not_sleeping (by simp [hwait]) (by simp [hwait]))).queues
          rfl (w := [.withdrawn (b.proctab v).prsem v]) rfl
          (by simp [Timing])
      exact hnote.setFree v
  case h_4 hready =>
      exact (h.unlink (hq.not_sleeping (by simp [hready])
        (by simp [hready]))).setFree v
  case h_5 => exact h.setFree v

/-- Every move but those of a tick keeps the sleepers on time. -/
theorem Move.sleepInv
    (hmove : Move action a b c) (hact : action ≠ .tick) (hq : Queued b)
    (h : SleepInv b) : SleepInv c := by
  have hnil := not_timing_nil
  have hidle : ∀ {p}, b.state p = .curr → p ∉ b.lists SLEEPQ := fun hcurr =>
    hq.not_sleeping (by simp [hcurr]) (by simp [hcurr])
  cases hmove with
  | adjust hsame =>
      rw [hsame.eq]
      exact h.queues rfl (w := []) rfl hnil
  | demote hcurr => exact h.enlist (hidle hcurr)
  | @dispatch _ p l _ hfirst =>
      have hmem : p ∈ b.lists READYQ := by simp [hfirst]
      exact (h.unlink (hq.ready_not_sleeping hmem)).queues rfl (w := []) rfl
        hnil
  | suspendCurr => exact h.queues rfl (w := []) rfl hnil
  | suspendReady hready =>
      exact (h.unlink (hq.not_sleeping (by simp [hready])
        (by simp [hready]))).queues rfl (w := []) rfl hnil
  | resume hsusp =>
      exact h.enlist (hq.not_sleeping (by simp [hsusp]) (by simp [hsusp]))
  | chprio => exact h.queues rfl (w := []) rfl hnil
  | @deliver _ p msg =>
      exact h.queues rfl (w := [.sent p msg]) rfl (by simp [Timing])
  | @deliverRecv _ p msg hempty hrecv =>
      have hdeposit : SleepInv (b.deposit p msg) :=
        h.queues rfl (w := [.sent p msg]) rfl (by simp [Timing])
      exact hdeposit.enlist
        (hq.not_sleeping (by simp [hrecv]) (by simp [hrecv]))
  | @deliverRectim _ p msg hempty hrectim =>
      have hdeposit : SleepInv (b.deposit p msg) :=
        h.queues rfl (w := [.sent p msg]) rfl (by simp [Timing])
      have hqd := hq.deposit p msg
      have hmem : p ∈ (b.deposit p msg).lists SLEEPQ :=
        hqd.mem_sleepq.mpr (Or.inr (by simp [hrectim]))
      refine (hdeposit.unsleepEarly hqd hmem).enlist ?_
      exact (hqd.unsleepEarly p).not_mem SLEEPQ
  | awaitMessage => exact h.queues rfl (w := []) rfl hnil
  | fetch => exact h.queues rfl (w := [_]) rfl (by simp [Timing])
  | fetchRet => exact h.queues rfl (w := [_]) rfl (by simp [Timing])
  | fetchTimed => exact h.queues rfl (w := [_]) rfl (by simp [Timing])
  | timeOut => exact h.queues rfl (w := [_]) rfl (by simp [Timing])
  | sleep hcurr hnull hpos => exact h.delay .sleep hq (hidle hcurr) hpos.le
  | awaitTimed hcurr hempty hnull hctx hpos =>
      exact (h.delay .rectim hq (hidle hcurr) hpos).queues rfl (w := []) rfl
        hnil
  | tick haction => exact absurd haction hact
  | expire haction => exact absurd haction hact
  | pass => exact h.queues rfl (w := [_]) rfl (by simp [Timing])
  | @wait _ sem hid =>
      refine h.same ?_ (fun _ _ => rfl) (w := [.waited sem b.currpid]) rfl
        (by simp [Timing])
      exact Function.update_of_ne (semq_ne_sleepq hid).symm _ b.queues.lists
  | signal => exact h.queues rfl (w := [_]) rfl (by simp [Timing])
  | @release _ sem p l hid hused hcount hfirst =>
      have hwait := (waiter_waits hq hid hfirst).2
      have hunlink := h.unlink
        (hq.not_sleeping (p := p) (by simp [hwait]) (by simp [hwait]))
      have hnote : SleepInv ((((b.bumpCount sem 1).note (.signalled sem)).note
          (.released sem p)).unlink p) :=
        hunlink.queues rfl (w := [.released sem p, .signalled sem]) rfl
          (by simp [Timing])
      exact hnote.enlist ((hq.unlink p).not_mem SLEEPQ)
  | @flush _ sem p l hid hfirst =>
      have hwait := (waiter_waits hq hid hfirst).2
      have hunlink := h.unlink
        (hq.not_sleeping (p := p) (by simp [hwait]) (by simp [hwait]))
      have hnote : SleepInv (((b.bumpCount sem 1).note
          (.flushed sem p)).unlink p) :=
        hunlink.queues rfl (w := [.flushed sem p]) rfl (by simp [Timing])
      exact hnote.enlist ((hq.unlink p).not_mem SLEEPQ)
  | @stray _ sem w hid hcount hnone hevents =>
      refine h.queues rfl (w := w) rfl ?_
      rcases hevents with rfl | rfl <;> simp [Timing]
  | semcreate => exact h.queues rfl (w := [_]) rfl (by simp [Timing])
  | semreset => exact h.queues rfl (w := [_]) rfl (by simp [Timing])
  | semfree => exact h.queues rfl (w := []) rfl hnil
  | semdone => exact h.queues rfl (w := []) rfl hnil
  | create => exact h.queues rfl (w := [_]) rfl (by simp [Timing])
  | setdesc => exact h.queues rfl (w := []) rfl hnil
  | pushFrame => exact h.queues rfl (w := []) rfl hnil
  | popFrame => exact h.queues rfl (w := []) rfl hnil
  | kill => exact h.queues rfl (w := []) rfl hnil
  | killClose => exact h.queues rfl (w := []) rfl hnil
  | @killFinish v s i rest haction hctx hlast hcurr =>
      have hfreed : SleepInv ((a.popFrame a.currpid).note
          (.stackFreed v (a.proctab v).serial)) :=
        h.queues rfl (w := [.stackFreed v (a.proctab v).serial]) rfl
          (by simp [Timing])
      exact hfreed.bury ((hq.popFrame _).note _) v

theorem Moves.sleepInv
    (hmoves : Moves action a a c) (hact : action ≠ .tick) (hq : Queued a)
    (h : SleepInv a) : SleepInv c := by
  have hboth : Queued c ∧ SleepInv c := by
    induction hmoves with
    | refl => exact ⟨hq, h⟩
    | tail _ hmove ih => exact ⟨hmove.queued ih.1, hmove.sleepInv hact ih.1 ih.2⟩
  exact hboth.2

end Invariant

/-! ## The tick -/

section Tick

variable {a c : Kernel QueueLists} {x : ℤ} {l gone rest : List ℤ}

/-- The tick takes one from the time of every sleeper. -/
theorem ticked_sleeper
    (h : SleepInv a) (hq : Queued a) (hlist : a.lists SLEEPQ = x :: l) {p : ℤ}
    (hp : p ∈ x :: l) :
    ∃ delay ticks, timer p a.ticked.log = some (delay, ticks + 1) ∧
      0 ≤ ticks ∧ ticks < max delay 1 ∧
      dueIn a.key p (x :: l) = delay - ticks ∧
      dueIn a.ticked.key p (x :: l) = delay - (ticks + 1) := by
  have hnodup : (x :: l).Nodup := hlist ▸ hq.placed.nodup SLEEPQ
  have hkeys : a.ticked.key = Function.update a.key x (a.key x - 1) := by
    show (a.queues.decFirstkey SLEEPQ).keys = _
    unfold QueueLists.decFirstkey
    rw [show a.queues.lists SLEEPQ = x :: l from hlist]
    rfl
  obtain ⟨delay, ticks, htimer, hpos, hlt, hdue⟩ := h.sleeper (hlist ▸ hp)
  rw [hlist] at hdue
  refine ⟨delay, ticks, ?_, hpos, hlt, hdue, ?_⟩
  · show (timer p a.log).map _ = _
    rw [htimer]
    rfl
  · rw [dueIn_charge (n := 1), hdue]
    · ring
    · rw [hkeys, Function.update_self]
    · intro z hz
      have hne : z ≠ x := by
        rintro rfl
        exact (List.nodup_cons.mp hnodup).1 hz
      rw [hkeys, Function.update_of_ne hne]

theorem key_ticked_first (hlist : a.lists SLEEPQ = x :: l) :
    a.ticked.key x = a.key x - 1 := by
  show (a.queues.decFirstkey SLEEPQ).keys x = _
  unfold QueueLists.decFirstkey
  rw [show a.queues.lists SLEEPQ = x :: l from hlist]
  exact Function.update_self _ _ _

theorem key_ticked_of_ne
    (hlist : a.lists SLEEPQ = x :: l) {p : ℤ} (hp : p ≠ x) :
    a.ticked.key p = a.key p := by
  show (a.queues.decFirstkey SLEEPQ).keys p = _
  unfold QueueLists.decFirstkey
  rw [show a.queues.lists SLEEPQ = x :: l from hlist]
  exact Function.update_of_ne hp _ _

/-- No tick falls on a queue whose first process has no time left while another
one has. -/
def NoneAbsorbs (a : Kernel QueueLists) : Prop :=
  ∀ x l, a.lists SLEEPQ = x :: l → a.key x = 0 → ∀ p ∈ x :: l, a.key p = 0

/-- Nobody stays behind, and all who expire asked for the next tick. -/
theorem SleepInv.tick_zero
    (h : SleepInv a) (hq : Queued a) (hlist : a.lists SLEEPQ = x :: l)
    (hzero : ∀ p ∈ x :: l, a.key p = 0) (hserved : Served a.ticked c gone rest)
    (hsplit : x :: l = gone ++ rest) :
    rest = [] ∧ ∀ p ∈ gone, ∃ delay,
      timer p a.ticked.log = some (delay, max delay 1) := by
  constructor
  · cases rest with
    | nil => rfl
    | cons y m =>
        have hlater := hserved.later y m rfl
        have hy : y ∈ x :: l := by
          rw [hsplit]
          simp
        by_cases hyx : y = x
        · rw [hyx, key_ticked_first hlist, hzero x (by simp)] at hlater
          omega
        · rw [key_ticked_of_ne hlist hyx, hzero y hy] at hlater
          omega
  · intro p hp
    obtain ⟨delay, ticks, htimer, hpos, hlt, hdue, -⟩ :=
      ticked_sleeper h hq hlist (hsplit ▸ List.mem_append_left rest hp)
    rw [dueIn_zero hzero] at hdue
    refine ⟨delay, ?_⟩
    rw [htimer, show max delay 1 = ticks + 1 by omega]

theorem SleepInv.tick_positive
    (h : SleepInv a) (hq : Queued a) (hlist : a.lists SLEEPQ = x :: l)
    (hfirst : 0 < a.key x) (hserved : Served a.ticked c gone rest)
    (hsplit : x :: l = gone ++ rest) :
    (∀ p ∈ gone, ∃ delay, timer p a.ticked.log = some (delay, max delay 1)) ∧
      (∀ p ∈ rest, 0 ≤ a.ticked.key p) ∧
      ∀ p ∈ rest, ∃ delay ticks,
        timer p a.ticked.log = some (delay, ticks + 1) ∧ 0 ≤ ticks ∧
        ticks + 1 < max delay 1 ∧
        dueIn a.ticked.key p rest = delay - (ticks + 1) := by
  have hnodup : (gone ++ rest).Nodup :=
    hsplit ▸ hlist ▸ hq.placed.nodup SLEEPQ
  have hkeys : ∀ p ∈ x :: l, 0 ≤ a.ticked.key p := by
    intro p hp
    by_cases hpx : p = x
    · rw [hpx, key_ticked_first hlist]
      omega
    · rw [key_ticked_of_ne hlist hpx]
      exact h.keys (hlist ▸ hp)
  have hgone : ∀ p ∈ gone, a.ticked.key p = 0 := fun p hp =>
    le_antisymm (hserved.due p hp)
      (hkeys p (hsplit ▸ List.mem_append_left rest hp))
  have hrest : ∀ p ∈ rest, 0 ≤ a.ticked.key p := fun p hp =>
    hkeys p (hsplit ▸ List.mem_append_right gone hp)
  refine ⟨?_, hrest, ?_⟩
  · intro p hp
    obtain ⟨delay, ticks, htimer, hpos, hlt, -, hdue⟩ :=
      ticked_sleeper h hq hlist (hsplit ▸ List.mem_append_left rest hp)
    rw [hsplit, dueIn_append_left hp, dueIn_zero hgone] at hdue
    refine ⟨delay, ?_⟩
    rw [htimer, show max delay 1 = ticks + 1 by omega]
  · intro p hp
    obtain ⟨delay, ticks, htimer, hpos, hlt, -, hdue⟩ :=
      ticked_sleeper h hq hlist (hsplit ▸ List.mem_append_right gone hp)
    have hnot : p ∉ gone := fun hmem =>
      (List.nodup_append.mp hnodup).2.2 p hmem p hp rfl
    have hsum : (gone.map a.ticked.key).sum = 0 := by
      rw [List.map_congr_left hgone, List.map_const', List.sum_replicate]
      simp
    rw [hsplit, dueIn_append_right hnot, hsum, zero_add] at hdue
    refine ⟨delay, ticks, htimer, hpos, ?_, hdue⟩
    cases rest with
    | nil => cases hp
    | cons y m =>
        have hlater := hserved.later y m rfl
        have hle := first_le_dueIn (x := p) (y := y)
          fun z hz => hrest z (List.mem_cons_of_mem y hz)
        omega

/-- The tick makes ready exactly those whose time is up. -/
theorem SleepInv.tick
    (h : SleepInv a) (hq : Queued a) (hnone : NoneAbsorbs a)
    (hserved : Served a.ticked c gone rest) : SleepInv c := by
  have hlists : a.ticked.lists SLEEPQ = a.lists SLEEPQ :=
    congrFun (lists_decFirstkey _ _) _
  have hsplit := hserved.split
  rw [hlists] at hsplit
  have hnodup : (gone ++ rest).Nodup := hsplit ▸ hq.placed.nodup SLEEPQ
  obtain ⟨hgone, -, hdisjoint⟩ := List.nodup_append.mp hnodup
  have htimely : Timely a.ticked.log := h.timely
  cases hlist : a.lists SLEEPQ with
  | nil =>
      rw [hlist] at hsplit
      obtain ⟨rfl, rfl⟩ := List.append_eq_nil_iff.mp hsplit.symm
      have hnil : ∀ {p}, p ∉ c.lists SLEEPQ := by
        intro p
        rw [hserved.left]
        exact List.not_mem_nil
      refine ⟨fun hp => absurd hp hnil, fun hp => absurd hp hnil, ?_⟩
      rw [hserved.log]
      exact htimely
  | cons x l =>
      rw [hlist] at hsplit
      have hkey := h.keys (p := x) (by rw [hlist]; simp)
      by_cases hzero : a.key x = 0
      · obtain ⟨rfl, hdue⟩ := h.tick_zero hq hlist (hnone x l hlist hzero)
          hserved hsplit
        have hnil : ∀ {p}, p ∉ c.lists SLEEPQ := by
          intro p
          rw [hserved.left]
          exact List.not_mem_nil
        refine ⟨fun hp => absurd hp hnil, fun hp => absurd hp hnil, ?_⟩
        rw [hserved.log]
        exact timely_gone hgone hdue htimely
      · obtain ⟨hdue, hkeys, hstay⟩ := h.tick_positive hq hlist (by omega)
          hserved hsplit
        refine ⟨?_, ?_, ?_⟩
        · intro p hp
          rw [hserved.left] at hp ⊢
          obtain ⟨delay, ticks, htimer, hpos, hlt, hleft⟩ := hstay p hp
          refine ⟨delay, ticks + 1, ?_, by omega, hlt, ?_⟩
          · rw [hserved.log, timer_gone fun hmem => hdisjoint p hmem p hp rfl,
              htimer]
          · rw [dueIn_congr hserved.keys, hleft]
        · intro p hp
          rw [hserved.left] at hp
          rw [hserved.keys p hp]
          exact hkeys p hp
        · rw [hserved.log]
          exact timely_gone hgone hdue htimely

end Tick

/-! ## Runs -/

/-- The condition on runs: no tick finds a process without time left in front of
one with some. -/
def NoTickAbsorbed (k : Kernel Queuetab) : Action → Prop
  | .tick => k.firstkey k.sleepq = 0 →
      ∀ p, k.state p = .sleep ∨ k.state p = .rectim → k.queues.key p = 0
  | _ => True

/-- Every sleeper of the queue table has as much time left as it asked for less
the ticks since then, its time is not up, and every sleeper that expired did so
at exactly the tick it asked for. -/
structure SleepLaw (k : Kernel Queuetab) : Prop where
  queue : ∃ l,
    Linked k.queues.next k.queues.prev k.sleepq l (k.sleepq + 1) ∧
    (∀ p, p ∈ l ↔ k.state p = .sleep ∨ k.state p = .rectim) ∧
    ∀ p ∈ l, ∃ delay ticks, timer p k.log = some (delay, ticks) ∧
      0 ≤ ticks ∧ ticks < max delay 1 ∧
      dueIn k.queues.key p l = delay - ticks
  expired : ∀ {p later earlier}, k.log = later ++ .expired p :: earlier →
    ∃ delay, timer p earlier = some (delay, max delay 1)

section Law

variable {mem : Memory} {memlistAddr imageEnd : Word}
variable {k₀ k : Kernel Queuetab}

theorem boot_sleepInv (heap : Heap) (stk : Word) :
    SleepInv (bootKernel emptyLists heap stk) :=
  ⟨fun hp => absurd hp List.not_mem_nil, fun hp => absurd hp List.not_mem_nil,
    trivial⟩

theorem key_withTable
    {a : Kernel QueueLists} {t : Queuetab} (ha : Settled a)
    (ht : Represents t a.queues) {p : ℤ} (hp : p ∈ a.lists SLEEPQ) :
    (a.withTable t).queues.key p = a.key p := by
  have hid : ProcId p := ht.mem hp |>.2
  exact ht.keys hid

theorem noneAbsorbs_of_allowed
    {a : Kernel QueueLists} {t : Queuetab} (ha : Settled a)
    (ht : Represents t a.queues)
    (hallowed : NoTickAbsorbed (a.withTable t) .tick) : NoneAbsorbs a := by
  intro x l hlist hzero p hp
  have hsleepq : (a.withTable t).sleepq = SLEEPQ := ha.queued.wired.sleepq
  have hfirst : (a.withTable t).firstkey (a.withTable t).sleepq = 0 := by
    rw [hsleepq, firstkey_withTable ht queueId_sleepq, ← hzero]
    unfold QueueLists.firstkey
    rw [show a.queues.lists SLEEPQ = x :: l from hlist]
    rfl
  have hmem : p ∈ a.lists SLEEPQ := hlist ▸ hp
  rw [← key_withTable ha ht hmem]
  exact hallowed hfirst p (ha.queued.mem_sleepq.mp hmem)

theorem sleepLaw_of_sleepInv
    {a : Kernel QueueLists} {t : Queuetab} (ha : Settled a)
    (ht : Represents t a.queues) (h : SleepInv a) :
    SleepLaw (a.withTable t) := by
  have hsleepq : (a.withTable t).sleepq = SLEEPQ := ha.queued.wired.sleepq
  refine ⟨⟨a.lists SLEEPQ, ?_, fun p => ha.queued.mem_sleepq, ?_⟩, ?_⟩
  · rw [hsleepq]
    exact ht.linked queueId_sleepq
  · intro p hp
    obtain ⟨delay, ticks, htimer, hpos, hlt, hdue⟩ := h.sleeper hp
    refine ⟨delay, ticks, htimer, hpos, hlt, ?_⟩
    rw [dueIn_congr fun y hy => key_withTable ha ht hy, hdue]
  · intro p later earlier hlog
    have htimely := h.timely
    rw [show a.log = later ++ .expired p :: earlier from hlog] at htimely
    exact timely_expired htimely

/-- In every run without an absorbed tick the sleepers are on time. -/
theorem sleepers_on_time
    (hboot : sysinit mem memlistAddr imageEnd = some k₀)
    (hreach : Reach step NoTickAbsorbed k₀ k) : SleepLaw k := by
  obtain ⟨a, t, rfl, ht, ha, h⟩ := run_invariant hboot hreach SleepInv
    boot_sleepInv <| by
      intro action a c t ha ht hallowed h hmoves _ _ hcompleted
      by_cases hact : action = .tick
      · subst hact
        obtain ⟨gone, rest, hserved⟩ := hcompleted.served rfl
        exact h.tick ha.queued (noneAbsorbs_of_allowed ha ht hallowed) hserved
      · exact hmoves.sleepInv hact ha.queued h
  exact sleepLaw_of_sleepInv ha ht h

end Law

/-- A run in which a process sleeps. -/
theorem sleepers_on_time_linkedBoot :
    ∃ k₀ k, sysinit (fun _ => 0) 0x121C30 0x143000 = some k₀ ∧
      Reach step NoTickAbsorbed k₀ k ∧
      (k.currpid, k.state 1, k.queues.key 1) = (0, .sleep, 5) ∧ SleepLaw k := by
  obtain ⟨k₀, k, hboot, hreach, hview⟩ := linkedBoot_run NoTickAbsorbed
    (fun k => (k.currpid, k.state 1, k.queues.key 1))
    [.call (.create 0 1000 20 []), .call (.resume 1), .call (.sleepms 5)]
    (v := (0, .sleep, 5)) (by decide +kernel)
    (allowed_of_forall fun k action hmem => by
      simp only [List.mem_cons, List.not_mem_nil, or_false] at hmem
      rcases hmem with rfl | rfl | rfl <;> trivial)
  exact ⟨k₀, k, hboot, hreach, hview, sleepers_on_time hboot hreach⟩

/-- Process 1 sleeps for five ticks and process 2 waits for a message for zero;
after one tick process 1 still has five ticks left. -/
theorem zero_wait_breaks_sleepers :
    ¬ ∀ {mem memlistAddr imageEnd k₀ k},
      sysinit mem memlistAddr imageEnd = some k₀ →
        Reach step (fun _ _ => True) k₀ k → SleepLaw k := by
  intro hlaw
  obtain ⟨k₀, k, hboot, hreach, hview⟩ := linkedBoot_run (fun _ _ => True)
    (fun k => (k.state 1, k.queues.next k.sleepq, k.queues.key 1,
      timer 1 k.log))
    [.call (.create 0 1000 20 []), .call (.resume 1), .call (.sleepms 5),
      .call (.create 0 1000 20 []), .call (.resume 2), .call (.recvtime 0),
      .tick]
    (v := (.sleep, 1, 5, some (5, 1))) (by decide +kernel)
    (allowed_of_forall fun _ _ _ => trivial)
  simp only [Prod.mk.injEq] at hview
  obtain ⟨hstate, hnext, hkey, htimer⟩ := hview
  obtain ⟨⟨l, hlinked, hmem, hdue⟩, -⟩ := hlaw hboot hreach
  have hone : (1 : ℤ) ∈ l := (hmem 1).mpr (Or.inl hstate)
  obtain ⟨delay, ticks, htimer', -, -, hleft⟩ := hdue 1 hone
  rw [htimer, Option.some.injEq, Prod.mk.injEq] at htimer'
  obtain ⟨rfl, rfl⟩ := htimer'
  cases l with
  | nil => cases hone
  | cons x l =>
      have hx : x = 1 := hlinked.1.symm.trans hnext
      rw [hx, dueIn, if_pos rfl, hkey] at hleft
      omega

end Xinu
