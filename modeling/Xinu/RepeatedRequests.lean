import Mathlib.Tactic

/-!
# Requests that are served again

A client that repeats a request until a reply comes has it served any number
of times.  A request whose effect settles leaves the state as it was or as one
execution leaves it, and every reply that reports success tells what that one
execution has done.
-/

namespace RepeatedRequests

variable {σ ρ : Type*}

/-- A request is served some times, with these replies. -/
inductive Served (serve : σ → ρ → σ → Prop) : σ → List ρ → σ → Prop
  | nil (s : σ) : Served serve s [] s
  | cons {s t u : σ} {r : ρ} {rs : List ρ}
      (hserve : serve s r t) (hrest : Served serve t rs u) :
      Served serve s (r :: rs) u

/-- Each time the request is refused or has its effect, which a second time
changes nothing and reports what the first time has done. -/
structure Settles (serve : σ → ρ → σ → Prop) (refused : ρ → Prop)
    (effect : σ → Option σ) (answers : σ → ρ → Prop) : Prop where
  served : ∀ s r t, serve s r t →
    (refused r ∧ t = s) ∨ (effect s = some t ∧ answers s r)
  again : ∀ s t u, effect s = some t → effect t = some u → u = t
  report : ∀ s t u r, effect s = some t → effect t = some u → answers t r →
    answers s r

section Rules

variable {serve : σ → ρ → σ → Prop} {refused : ρ → Prop}
  {effect : σ → Option σ} {answers : σ → ρ → Prop} {s t u : σ} {r : ρ}
  {rs rs' : List ρ}

theorem Served.append
    (h : Served serve s rs t) (h' : Served serve t rs' u) :
    Served serve s (rs ++ rs') u := by
  induction h with
  | nil s => exact h'
  | cons hserve _ ih => exact .cons hserve (ih h')

theorem Served.exists_of_mem (h : Served serve s rs t) (hr : r ∈ rs) :
    ∃ u v, serve u r v := by
  induction h with
  | nil s => cases hr
  | @cons s t u r' rs hserve _ ih =>
      rcases List.mem_cons.mp hr with rfl | hmem
      · exact ⟨s, t, hserve⟩
      · exact ih hmem

/-- After the effect the state stays. -/
theorem Settles.settled
    (h : Settles serve refused effect answers) (heffect : effect s = some t)
    (hserved : Served serve t rs u) :
    u = t ∧ ∀ r ∈ rs, refused r ∨ answers s r := by
  induction hserved with
  | nil t => exact ⟨rfl, by simp⟩
  | @cons t v u r rs hserve _ ih =>
      have hcases := h.served t r v hserve
      have hsame : v = t := by
        rcases hcases with ⟨-, hv⟩ | ⟨hv, -⟩
        · exact hv
        · exact h.again s t v heffect hv
      have hreply : refused r ∨ answers s r := by
        rcases hcases with ⟨hr, -⟩ | ⟨hv, hr⟩
        · exact Or.inl hr
        · exact Or.inr (h.report s t v r heffect hv hr)
      obtain ⟨hlast, hrest⟩ := ih (hsame ▸ heffect)
      refine ⟨hlast.trans hsame, fun r' hr' => ?_⟩
      rcases List.mem_cons.mp hr' with rfl | hmem
      · exact hreply
      · exact hrest r' hmem

end Rules

end RepeatedRequests
