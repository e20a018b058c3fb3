import Mathlib

/-!
# Machines that answer

A machine `step : σ → α → β × σ` answers an action and goes on to a next state.
`Simulates R C step step'` says that the two machines, in states that `R` relates, answer every
action that meets `C` alike and stay related; then they answer every sequence of such actions
alike (`Simulates.trace_eq`).

Often the state of the second machine is a family of objects, and an action is about one of
them or about none.  Then it is enough to look at the object that the action is about and to see
that the others are left alone (`simulates_onObject`).
-/

namespace Simulation

universe u v w

variable {σ : Type u} {τ : Type v} {α β : Type w} {step : σ → α → β × σ} {step' : τ → α → β × τ}
  {R : σ → τ → Prop} {C : α → Prop}

/-- The answers to a list of actions, and the state behind the last. -/
def trace (step : σ → α → β × σ) : σ → List α → List β × σ
  | s, [] => ([], s)
  | s, a :: as => ((step s a).1 :: (trace step (step s a).2 as).1, (trace step (step s a).2 as).2)

/-- The machines answer alike and stay related. -/
def Simulates (R : σ → τ → Prop) (C : α → Prop) (step : σ → α → β × σ) (step' : τ → α → β × τ) : Prop :=
  ∀ s u a, R s u → C a → (step s a).1 = (step' u a).1 ∧ R (step s a).2 (step' u a).2

/-- **Whole runs are answered alike.** -/
theorem Simulates.trace_eq (h : Simulates R C step step') : ∀ (as : List α) (s : σ) (u : τ), R s u →
    (∀ a ∈ as, C a) → (trace step s as).1 = (trace step' u as).1 ∧ R (trace step s as).2 (trace step' u as).2 := by
  intro as
  induction as with
  | nil => exact fun s u hR _ => ⟨rfl, hR⟩
  | cons a as ih =>
    intro s u hR hC
    obtain ⟨hans, hR'⟩ := h s u a hR (hC a List.mem_cons_self)
    obtain ⟨hrest, hend⟩ := ih _ _ hR' (fun b hb => hC b (List.mem_cons_of_mem _ hb))
    exact ⟨by rw [trace, trace, hans, hrest], hend⟩

section Objects

variable {ι ν : Type v} [DecidableEq ι] {about : α → Option ι} {deny : α → β} {effect : α → ν → β × ν}

/-- A family of objects, each of which only the actions about it change. -/
def onObject (about : α → Option ι) (deny : α → β) (effect : α → ν → β × ν) (u : ι → ν) (a : α) : β × (ι → ν) :=
  match about a with
  | none => (deny a, u)
  | some i => ((effect a (u i)).1, Function.update u i (effect a (u i)).2)

/-- **One object at a time.** -/
theorem simulates_onObject (P : Set ι) (Rel : ι → σ → ν → Prop)
    (hnone : ∀ s a, C a → about a = none → (step s a).1 = deny a ∧
      ∀ i ∈ P, ∀ n, Rel i s n → Rel i (step s a).2 n)
    (hown : ∀ s a i n, C a → about a = some i → i ∈ P → Rel i s n →
      (step s a).1 = (effect a n).1 ∧ Rel i (step s a).2 (effect a n).2)
    (hother : ∀ s a i j n m, C a → about a = some i → i ∈ P → Rel i s n → j ∈ P → j ≠ i → Rel j s m →
      Rel j (step s a).2 m) :
    Simulates (fun s u => ∀ i ∈ P, Rel i s (u i)) (fun a => C a ∧ ∀ i, about a = some i → i ∈ P) step
      (onObject about deny effect) := by
  intro s u a hR hC
  obtain ⟨hCa, hP⟩ := hC
  cases ha : about a with
  | none =>
    obtain ⟨hans, hkeep⟩ := hnone s a hCa ha
    simp only [onObject, ha]
    exact ⟨hans, fun i hi => hkeep i hi (u i) (hR i hi)⟩
  | some i =>
    have hi := hP i ha
    obtain ⟨hans, hrel⟩ := hown s a i (u i) hCa ha hi (hR i hi)
    simp only [onObject, ha]
    refine ⟨hans, fun j hj => ?_⟩
    by_cases hji : j = i
    · subst hji
      rw [Function.update_self]
      exact hrel
    · rw [Function.update_of_ne hji]
      exact hother s a i j (u i) (u j) hCa ha hi (hR i hi) hj hji (hR j hj)

end Objects

end Simulation
