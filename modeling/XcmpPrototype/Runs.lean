import Mathlib.Data.Option.Basic
import Mathlib.Logic.Basic

/-!
# Runs of a transition system

A system moves by a partial step function: an event that cannot happen in a state has no next state.  A run may be
restricted to steps that meet a condition on the state before the step and the event.  `Reaches.invariant` is the
induction rule for such runs, and `reaches_of_run` turns a list of events that can be computed into a run.
-/

variable {σ ε : Type} {step : σ → ε → Option σ} {C : σ → ε → Prop} {s₀ s : σ}

/-- The states reached from `s₀` by runs all of whose steps meet `C`. -/
inductive Reaches (step : σ → ε → Option σ) (C : σ → ε → Prop) (s₀ : σ) : σ → Prop
  | refl : Reaches step C s₀ s₀
  | tail {s s' : σ} {e : ε} : Reaches step C s₀ s → C s e → step s e = some s' → Reaches step C s₀ s'

/-- The states reached by runs without any restriction. -/
abbrev Reachable (step : σ → ε → Option σ) (s₀ : σ) : σ → Prop := Reaches step (fun _ _ => True) s₀

/-- What holds initially and is kept by every step that meets the condition holds after every run. -/
theorem Reaches.invariant {I : σ → Prop} (hinit : I s₀)
    (hstep : ∀ s e s', I s → C s e → step s e = some s' → I s') (h : Reaches step C s₀ s) : I s := by
  induction h with
  | refl => exact hinit
  | tail _ hc hs ih => exact hstep _ _ _ ih hc hs

theorem Reaches.mono {C' : σ → ε → Prop} (hC : ∀ s e, C s e → C' s e) (h : Reaches step C s₀ s) :
    Reaches step C' s₀ s := by
  induction h with
  | refl => exact .refl
  | tail _ hc hs ih => exact .tail ih (hC _ _ hc) hs

theorem Reaches.trans {s' : σ} (h : Reaches step C s₀ s) (h' : Reaches step C s s') : Reaches step C s₀ s' := by
  induction h' with
  | refl => exact h
  | tail _ hc hs ih => exact .tail ih hc hs

def run (step : σ → ε → Option σ) : σ → List ε → Option σ
  | s, [] => some s
  | s, e :: es => (step s e).bind fun s' => run step s' es

theorem reaches_of_run (es : List ε) (h : run step s₀ es = some s) : Reachable step s₀ s := by
  induction es generalizing s₀ with
  | nil => cases h; exact .refl
  | cons e es ih =>
    obtain ⟨s', hs, hr⟩ := Option.bind_eq_some_iff.1 h
    exact (Reaches.tail .refl trivial hs).trans (ih hr)
