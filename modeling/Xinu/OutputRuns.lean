import Mathlib.Tactic

/-!
# Runs that give outputs

A machine takes a call and gives an output, or stops.  The outputs of all its
calls are what its users see; a relation that the calls keep makes two
machines indistinguishable, and a relation between the states of a machine and
those of a nondeterministic system makes every run of the machine a run of the
system.
-/

namespace OutputRuns

variable {σ τ ι ρ : Type*}

/-- The state after some calls, and their outputs. -/
def runs (step : σ → ι → Option (σ × ρ)) :
    List ι → σ → Option (σ × List ρ)
  | [], s => some (s, [])
  | call :: calls, s =>
      (step s call).bind fun (s, out) =>
        (runs step calls s).map fun (s, outs) => (s, out :: outs)

section Rules

variable {step : σ → ι → Option (σ × ρ)} {s s' : σ} {call : ι}
  {calls calls' : List ι} {outs : List ρ}

theorem runs_nil : runs step [] s = some (s, []) :=
  rfl

theorem runs_cons :
    runs step (call :: calls) s =
      (step s call).bind fun (s, out) =>
        (runs step calls s).map fun (s, outs) => (s, out :: outs) :=
  rfl

theorem runs_cons_eq_some :
    runs step (call :: calls) s = some (s', outs) ↔
      ∃ t out rest, step s call = some (t, out) ∧
        runs step calls t = some (s', rest) ∧ outs = out :: rest := by
  rw [runs_cons, Option.bind_eq_some_iff]
  constructor
  · rintro ⟨⟨t, out⟩, hstep, hrest⟩
    rw [Option.map_eq_some_iff] at hrest
    obtain ⟨⟨s'', rest⟩, hruns, heq⟩ := hrest
    rw [Prod.mk.injEq] at heq
    obtain ⟨rfl, rfl⟩ := heq
    exact ⟨t, out, rest, hstep, hruns, rfl⟩
  · rintro ⟨t, out, rest, hstep, hruns, rfl⟩
    exact ⟨(t, out), hstep, by simp [hruns]⟩

/-- An invariant of the calls holds after every run. -/
theorem runs_invariant
    (Inv : σ → Prop)
    (hstep : ∀ s call s' out, Inv s → step s call = some (s', out) → Inv s')
    (hs : Inv s) (hruns : runs step calls s = some (s', outs)) : Inv s' := by
  induction calls generalizing s outs with
  | nil =>
      simp only [runs_nil, Option.some.injEq, Prod.mk.injEq] at hruns
      exact hruns.1 ▸ hs
  | cons call calls ih =>
      obtain ⟨t, out, rest, hcall, hrest, -⟩ := runs_cons_eq_some.mp hruns
      exact ih (hstep s call t out hs hcall) hrest

end Rules

/-! ## Machines with the same outputs -/

/-- Two calls stop both, or give one output and related states. -/
def Alike (R : σ → τ → Prop) : Option (σ × ρ) → Option (τ × ρ) → Prop :=
  Option.Rel fun x y => R x.1 y.1 ∧ x.2 = y.2

section Alike

variable {R : σ → τ → Prop} {step : σ → ι → Option (σ × ρ)}
  {step' : τ → ι → Option (τ × ρ)} {s : σ} {t : τ}

theorem runs_alike
    (hstep : ∀ s t call, R s t → Alike R (step s call) (step' t call))
    (h : R s t) (calls : List ι) :
    Alike R (runs step calls s) (runs step' calls t) := by
  induction calls generalizing s t with
  | nil => exact .some ⟨h, rfl⟩
  | cons call calls ih =>
      have hcall := hstep s t call h
      rw [runs_cons, runs_cons]
      generalize step s call = x at hcall ⊢
      generalize step' t call = y at hcall ⊢
      cases hcall with
      | none => exact .none
      | @some x y hrel =>
          obtain ⟨s', out⟩ := x
          obtain ⟨t', out'⟩ := y
          obtain ⟨hrest, rfl⟩ := hrel
          have hruns := ih hrest
          simp only [Option.bind_some]
          generalize runs step calls s' = a at hruns ⊢
          generalize runs step' calls t' = b at hruns ⊢
          cases hruns with
          | none => exact .none
          | some hlast =>
              exact .some ⟨hlast.1, congrArg (List.cons out) hlast.2⟩

/-- Machines whose calls keep a relation have the same outputs. -/
theorem runs_outputs_eq
    (R : σ → τ → Prop)
    (hstep : ∀ s t call, R s t → Alike R (step s call) (step' t call))
    (h : R s t) (calls : List ι) :
    (runs step calls s).map Prod.snd = (runs step' calls t).map Prod.snd := by
  have hruns := runs_alike hstep h calls
  generalize runs step calls s = a at hruns ⊢
  generalize runs step' calls t = b at hruns ⊢
  cases hruns with
  | none => rfl
  | some hlast => exact congrArg some hlast.2

end Alike

/-! ## Runs of a nondeterministic system -/

/-- The calls and outputs that a system can go through. -/
inductive Trace (step : τ → ι → τ → ρ → Prop) :
    τ → List ι → List ρ → τ → Prop
  | nil (t : τ) : Trace step t [] [] t
  | cons {t t' t'' : τ} {call : ι} {out : ρ} {calls : List ι} {outs : List ρ}
      (hcall : step t call t' out) (hrest : Trace step t' calls outs t'') :
      Trace step t (call :: calls) (out :: outs) t''

/-- Every run of a machine that a system simulates is one of its runs. -/
theorem trace_of_runs
    (R : σ → τ → Prop) {step : σ → ι → Option (σ × ρ)}
    (step' : τ → ι → τ → ρ → Prop) {s s' : σ} {t : τ} {calls : List ι}
    {outs : List ρ}
    (hstep : ∀ s t call s' out, R s t → step s call = some (s', out) →
      ∃ t', step' t call t' out ∧ R s' t')
    (h : R s t) (hruns : runs step calls s = some (s', outs)) :
    ∃ t', Trace step' t calls outs t' ∧ R s' t' := by
  induction calls generalizing s t outs with
  | nil =>
      simp only [runs_nil, Option.some.injEq, Prod.mk.injEq] at hruns
      obtain ⟨rfl, rfl⟩ := hruns
      exact ⟨t, .nil t, h⟩
  | cons call calls ih =>
      obtain ⟨s₁, out, rest, hcall, hrest, rfl⟩ := runs_cons_eq_some.mp hruns
      obtain ⟨t₁, hmove, hrel⟩ := hstep s t call s₁ out h hcall
      obtain ⟨t', htrace, hlast⟩ := ih hrel hrest
      exact ⟨t', .cons hmove htrace, hlast⟩

end OutputRuns
