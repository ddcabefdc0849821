import Mathlib.Tactic

/-!
# Runs of a deterministic step function

A system is a partial step function; a state in which an action is impossible
gives `none`.  A run is restricted by a condition on each step, so that one
notion covers unrestricted runs and the runs of a disciplined environment.
-/

namespace TransitionSystem

variable {State Action : Type*}

/-- The states that steps meeting `allowed` reach from `start`. -/
inductive Reach
    (step : State → Action → Option State)
    (allowed : State → Action → Prop) (start : State) : State → Prop
  | start : Reach step allowed start start
  | next {s s' : State} (action : Action)
      (hreach : Reach step allowed start s) (hallowed : allowed s action)
      (hstep : step s action = some s') : Reach step allowed start s'

section Rules

variable
    {step : State → Action → Option State}
    {allowed : State → Action → Prop} {start s : State}

/-- An invariant that holds at the start and survives each allowed step holds
in every state of a run. -/
theorem Reach.invariant
    (hreach : Reach step allowed start s) (Inv : State → Prop)
    (hstart : Inv start)
    (hstep : ∀ s action s', Inv s → allowed s action →
      step s action = some s' → Inv s') :
    Inv s := by
  induction hreach with
  | start => exact hstart
  | next action _ hallowed hnext ih => exact hstep _ action _ ih hallowed hnext

theorem Reach.mono
    {allowed' : State → Action → Prop}
    (hreach : Reach step allowed start s)
    (hallowed : ∀ s action, allowed s action → allowed' s action) :
    Reach step allowed' start s := by
  induction hreach with
  | start => exact .start
  | next action _ hok hnext ih => exact ih.next action (hallowed _ _ hok) hnext

/-- A run carries over to another system whose steps match its steps, or which
stays where it is. -/
theorem Reach.lift
    {State' Action' : Type*} {step' : State' → Action' → Option State'}
    {allowed' : State' → Action' → Prop} (f : State → State')
    (hreach : Reach step allowed start s)
    (hsim : ∀ s action s', Reach step allowed start s → allowed s action →
      step s action = some s' → f s' = f s ∨
        ∃ action', allowed' (f s) action' ∧
          step' (f s) action' = some (f s')) :
    Reach step' allowed' (f start) (f s) := by
  induction hreach with
  | start => exact .start
  | next action hreach hallowed hnext ih =>
      rcases hsim _ action _ hreach hallowed hnext with
        hsame | ⟨action', hallowed', hnext'⟩
      · rw [hsame]
        exact ih
      · exact ih.next action' hallowed' hnext'

end Rules

/-- Take the listed actions one after the other. -/
def run (step : State → Action → Option State) :
    State → List Action → Option State
  | s, [] => some s
  | s, action :: actions =>
      (step s action).bind fun s' => run step s' actions

/-- Every action of the list meets the condition when its turn comes. -/
def Allowed
    (step : State → Action → Option State)
    (allowed : State → Action → Prop) : State → List Action → Prop
  | _, [] => True
  | s, action :: actions =>
      allowed s action ∧
        ∀ s', step s action = some s' → Allowed step allowed s' actions

theorem Reach.run
    {step : State → Action → Option State}
    {allowed : State → Action → Prop} {start s s' : State}
    (actions : List Action) (hreach : Reach step allowed start s)
    (hallowed : Allowed step allowed s actions)
    (hrun : run step s actions = some s') :
    Reach step allowed start s' := by
  induction actions generalizing s with
  | nil =>
      simp only [TransitionSystem.run, Option.some.injEq] at hrun
      rwa [← hrun]
  | cons action actions ih =>
      simp only [TransitionSystem.run, Option.bind_eq_some_iff] at hrun
      obtain ⟨mid, hmid, hrest⟩ := hrun
      exact ih (hreach.next action hallowed.1 hmid) (hallowed.2 mid hmid) hrest

/-- A run that checks the condition before each step. -/
theorem Reach.run_checked
    {step : State → Action → Option State}
    {allowed : State → Action → Prop} [∀ s action, Decidable (allowed s action)]
    {start s s' : State} (actions : List Action)
    (hreach : Reach step allowed start s)
    (hrun : TransitionSystem.run
      (fun s action => if allowed s action then step s action else none)
        s actions = some s') :
    Reach step allowed start s' := by
  induction actions generalizing s with
  | nil =>
      simp only [TransitionSystem.run, Option.some.injEq] at hrun
      rwa [← hrun]
  | cons action actions ih =>
      simp only [TransitionSystem.run, Option.bind_eq_some_iff] at hrun
      obtain ⟨mid, hmid, hrest⟩ := hrun
      split_ifs at hmid with hallowed
      exact ih (hreach.next action hallowed hmid) hrest

end TransitionSystem
