import Mathlib

/-!
# Runs of a step function

A machine is a function `step : σ → α → Option σ`: at state `s` the action `a`
either is not possible (`none`) or leads to one next state.  Concurrency is in
the actions, since a run is any sequence of them.

`Reaches step C s₀ s` says that some run leads from `s₀` to `s` with every one
of its steps meeting `C`, a condition on the state before the step and the
action taken.  `Reaches.invariant` is the one induction over runs: an invariant
that holds at the start and is kept by every admitted step holds in every state
reached.
-/

namespace Transition

universe u v

variable {σ : Type u} {α : Type v} {step : σ → α → Option σ} {C D : σ → α → Prop}

/-- The states that runs from `s₀` reach by steps meeting `C`. -/
inductive Reaches (step : σ → α → Option σ) (C : σ → α → Prop) (s₀ : σ) : σ → Prop
  | start : Reaches step C s₀ s₀
  | tail {s s' : σ} {a : α} (prior : Reaches step C s₀ s) (hC : C s a)
      (hstep : step s a = some s') : Reaches step C s₀ s'

/-- **The induction over runs.** -/
theorem Reaches.invariant {s₀ s : σ} (I : σ → Prop) (h₀ : I s₀)
    (hkeep : ∀ {s s' : σ} {a : α}, I s → C s a → step s a = some s' → I s')
    (h : Reaches step C s₀ s) : I s := by
  induction h with
  | start => exact h₀
  | tail _ hC hstep ih => exact hkeep ih hC hstep

/-- A weaker condition admits more runs. -/
theorem Reaches.mono (hCD : ∀ s a, C s a → D s a) {s₀ s : σ} (h : Reaches step C s₀ s) :
    Reaches step D s₀ s := by
  induction h with
  | start => exact .start
  | tail _ hC hstep ih => exact .tail ih (hCD _ _ hC) hstep

/-- A run from where another one ends. -/
theorem Reaches.trans {s₀ s s' : σ} (h : Reaches step C s₀ s) (h' : Reaches step C s s') : Reaches step C s₀ s' := by
  induction h' with
  | start => exact h
  | tail _ hC hstep ih => exact .tail ih hC hstep

/-- **A forward simulation**: where runs of the second machine match every step of the first, they
match every run of it. -/
theorem Reaches.simulated {τ : Type*} {β : Type*} {step' : τ → β → Option τ} {E : τ → β → Prop}
    {R : σ → τ → Prop} {s₀ s : σ} {u₀ : τ} (h₀ : R s₀ u₀)
    (hsim : ∀ {s s' : σ} {a : α} {u : τ}, R s u → Reaches step' E u₀ u → C s a → step s a = some s' →
      ∃ u', Reaches step' E u u' ∧ R s' u')
    (h : Reaches step C s₀ s) : ∃ u, Reaches step' E u₀ u ∧ R s u := by
  induction h with
  | start => exact ⟨u₀, .start, h₀⟩
  | tail _ hC hstep ih =>
    obtain ⟨u, hu, hR⟩ := ih
    obtain ⟨u', hu', hR'⟩ := hsim hR hu hC hstep
    exact ⟨u', hu.trans hu', hR'⟩

/-- Runs the actions of a list one after the other. -/
def run (step : σ → α → Option σ) : σ → List α → Option σ
  | s, [] => some s
  | s, a :: as => (step s a).bind (fun s' => run step s' as)

/-- The steps that pass a test. -/
def guarded (ok : σ → α → Bool) (step : σ → α → Option σ) (s : σ) (a : α) : Option σ :=
  if ok s a then step s a else none

/-- A run whose steps all pass a test for `C`. -/
theorem Reaches.guardedRun (ok : σ → α → Bool) (hok : ∀ s a, ok s a = true → C s a) {s₀ s s' : σ}
    {as : List α} (h : Reaches step C s₀ s) (hr : run (guarded ok step) s as = some s') :
    Reaches step C s₀ s' := by
  induction as generalizing s with
  | nil =>
    rw [← Option.some.inj hr]
    exact h
  | cons a as ih =>
    rw [run] at hr
    obtain ⟨s₁, hs, hr⟩ := Option.bind_eq_some_iff.mp hr
    unfold guarded at hs
    split at hs
    · next ha => exact ih (.tail h (hok s a ha) hs) hr
    · exact absurd hs (by simp)

/-- The end of a run is reached. -/
theorem reaches_of_run {s₀ s : σ} {as : List α} (hr : run step s₀ as = some s) :
    Reaches step (fun _ _ => True) s₀ s :=
  Reaches.guardedRun (fun _ _ => true) (fun _ _ _ => trivial) .start hr

end Transition
