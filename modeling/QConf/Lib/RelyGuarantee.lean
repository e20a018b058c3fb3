import Mathlib

/-!
# Programs that ask a server, and what holds however they interleave

A program is a tree of requests: it is done, or it asks the server and goes on with
the answer.  Run alone it is a function of the state of the server (`Prog.run`).  Several
programs share the server; between any two requests of one of them the others may make
theirs, and the state may change by itself (`Step`).

A program keeps `P` to `Q` (`Keeps`) if from a state with `P` every request of it
changes the state within its guarantee `G`, whatever the others do within the rely `R`
between its requests, and if at its end `Q` holds.  What it asserts in between must be
stable under `R`.  The rules are those of a Hoare logic: `Keeps.done`, `Keeps.ask`,
`Keeps.bind`, `Keeps.weaken` and `Keeps.frame`.  `keeps_all` puts the programs together: if the guarantee
of each is allowed by the rely of the others, then the invariant holds in every
state that is reached, and each program that is done has kept its promise.
-/

namespace RelyGuarantee

/-- A program with requests `ι`; the request `i` is answered by a `ρ i`. -/
inductive Prog (ι : Type) (ρ : ι → Type) (α : Type) : Type
  | done (a : α)
  | ask (i : ι) (k : ρ i → Prog ι ρ α)

namespace Prog

variable {ι : Type} {ρ : ι → Type} {α β : Type}

def bind : Prog ι ρ α → (α → Prog ι ρ β) → Prog ι ρ β
  | done a, f => f a
  | ask i k, f => ask i (fun r => (k r).bind f)

instance : Monad (Prog ι ρ) where
  pure := done
  bind := bind

@[simp] theorem pure_eq (a : α) : (pure a : Prog ι ρ α) = done a := rfl

@[simp] theorem done_bind (a : α) (f : α → Prog ι ρ β) : done a >>= f = f a := rfl

@[simp] theorem ask_bind (i : ι) (k : ρ i → Prog ι ρ α) (f : α → Prog ι ρ β) :
    ask i k >>= f = ask i (fun r => k r >>= f) := rfl

/-- The program alone with a server that answers by `serve`. -/
def run {σ : Type} (serve : (i : ι) → σ → ρ i × σ) : Prog ι ρ α → σ → α × σ
  | done a, s => (a, s)
  | ask i k, s => run serve (k (serve i s).1) (serve i s).2

variable {σ : Type} {serve : (i : ι) → σ → ρ i × σ}

@[simp] theorem run_done (a : α) (s : σ) : (done a : Prog ι ρ α).run serve s = (a, s) := rfl

@[simp] theorem run_ask (i : ι) (k : ρ i → Prog ι ρ α) (s : σ) :
    (ask i k).run serve s = (k (serve i s).1).run serve (serve i s).2 := rfl

@[simp] theorem run_bind (p : Prog ι ρ α) (f : α → Prog ι ρ β) (s : σ) :
    (p >>= f).run serve s = (f (p.run serve s).1).run serve (p.run serve s).2 := by
  induction p generalizing s with
  | done a => rfl
  | ask i k ih => exact ih _ _

end Prog

open Prog

variable {ι : Type} {ρ : ι → Type} {σ α β : Type}

/-! ### One program -/

section

variable (serves : σ → (i : ι) → ρ i → σ → Prop) (I : σ → Prop) (R G : σ → σ → Prop)

/-- What the others do between two states with the invariant does not disturb `P`. -/
def Stable (P : σ → Prop) : Prop := ∀ s s', I s → I s' → R s s' → P s → P s'

/-- The requests of a program that starts in a state with `P`. -/
def Meets : Prog ι ρ α → (σ → Prop) → (α → σ → Prop) → Prop
  | done a, P, Q => ∀ s, I s → P s → Q a s
  | ask i k, P, Q => ∀ s r s', I s → P s → serves s i r s' →
      G s s' ∧ ∃ P', Stable I R P' ∧ P' s' ∧ Meets (k r) P' Q

/-- **A program keeps `P` to `Q`.** -/
structure Keeps (P : σ → Prop) (p : Prog ι ρ α) (Q : α → σ → Prop) : Prop where
  stable : Stable I R P
  meets : Meets serves I R G p P Q

end

section

variable {serves : σ → (i : ι) → ρ i → σ → Prop} {I : σ → Prop} {R G : σ → σ → Prop}
  {P P' : σ → Prop} {Q : α → σ → Prop} {Q' : β → σ → Prop}

theorem Stable.and (h : Stable I R P) (h' : Stable I R P') : Stable I R (fun s => P s ∧ P' s) :=
  fun s s' hi hi' hr hp => ⟨h s s' hi hi' hr hp.1, h' s s' hi hi' hr hp.2⟩

theorem stable_const (p : Prop) : Stable I R (fun _ => p) := fun _ _ _ _ _ h => h

theorem Meets.weaken {p : Prog ι ρ α} {Q₁ : α → σ → Prop} (h : Meets serves I R G p P Q)
    (hP : ∀ s, I s → P' s → P s) (hQ : ∀ a s, I s → Q a s → Q₁ a s) : Meets serves I R G p P' Q₁ := by
  induction p generalizing P P' with
  | done a => exact fun s hi hp => hQ a s hi (h s hi (hP s hi hp))
  | ask i k ih =>
    intro s r s' hi hp hs
    obtain ⟨hg, P₁, hst, hp₁, hk⟩ := h s r s' hi (hP s hi hp) hs
    exact ⟨hg, P₁, hst, hp₁, ih r hk (fun _ _ hp => hp)⟩

theorem Keeps.weaken {p : Prog ι ρ α} {Q₁ : α → σ → Prop} (h : Keeps serves I R G P p Q)
    (hst : Stable I R P') (hP : ∀ s, I s → P' s → P s) (hQ : ∀ a s, I s → Q a s → Q₁ a s) :
    Keeps serves I R G P' p Q₁ :=
  ⟨hst, h.meets.weaken hP hQ⟩

theorem Keeps.done {a : α} (hst : Stable I R P) (h : ∀ s, I s → P s → Q a s) :
    Keeps serves I R G P (.done a) Q :=
  ⟨hst, h⟩

/-- One request: each answer leaves a state in which the rest can go on. -/
theorem Keeps.ask {i : ι} {k : ρ i → Prog ι ρ α} (P₁ : ρ i → σ → Prop) (hst : Stable I R P)
    (hserve : ∀ s r s', I s → P s → serves s i r s' → G s s' ∧ P₁ r s')
    (hk : ∀ r, Keeps serves I R G (P₁ r) (k r) Q) : Keeps serves I R G P (.ask i k) Q := by
  refine ⟨hst, fun s r s' hi hp hs => ?_⟩
  obtain ⟨hg, hp₁⟩ := hserve s r s' hi hp hs
  exact ⟨hg, P₁ r, (hk r).stable, hp₁, (hk r).meets⟩

theorem Meets.bind {p : Prog ι ρ α} {f : α → Prog ι ρ β} (hp : Meets serves I R G p P Q)
    (hf : ∀ a, Keeps serves I R G (Q a) (f a) Q') : Meets serves I R G (p >>= f) P Q' := by
  induction p generalizing P with
  | done a => exact (hf a).meets.weaken hp (fun _ _ _ h => h)
  | ask i k ih =>
    intro s r s' hi hps hs
    obtain ⟨hg, P₁, hst, hp₁, hk⟩ := hp s r s' hi hps hs
    exact ⟨hg, P₁, hst, hp₁, ih r hk⟩

/-- One program after another. -/
theorem Keeps.bind {p : Prog ι ρ α} {f : α → Prog ι ρ β} (hp : Keeps serves I R G P p Q)
    (hf : ∀ a, Keeps serves I R G (Q a) (f a) Q') : Keeps serves I R G P (p >>= f) Q' :=
  ⟨hp.stable, hp.meets.bind hf⟩

theorem Meets.frame {p : Prog ι ρ α} {F : σ → Prop} (h : Meets serves I R G p P Q) (hF : Stable I R F)
    (hG : ∀ s s', I s → G s s' → F s → F s') :
    Meets serves I R G p (fun s => P s ∧ F s) (fun a s => Q a s ∧ F s) := by
  induction p generalizing P with
  | done a => exact fun s hi hp => ⟨h s hi hp.1, hp.2⟩
  | ask i k ih =>
    intro s r s' hi hp hs
    obtain ⟨hg, P₁, hst, hp₁, hk⟩ := h s r s' hi hp.1 hs
    exact ⟨hg, fun s => P₁ s ∧ F s, hst.and hF, ⟨hp₁, hG s s' hi hg hp.2⟩, ih r hk⟩

/-- What neither the others nor the program disturb is kept along. -/
theorem Keeps.frame {p : Prog ι ρ α} {F : σ → Prop} (h : Keeps serves I R G P p Q) (hF : Stable I R F)
    (hG : ∀ s s', I s → G s s' → F s → F s') :
    Keeps serves I R G (fun s => P s ∧ F s) p (fun a s => Q a s ∧ F s) :=
  ⟨h.stable.and hF, h.meets.frame hF hG⟩

/-- What does not depend on the state is known to the program. -/
theorem Keeps.of_imp {p : Prog ι ρ α} {φ : Prop} (h : φ → Keeps serves I R G P p Q) (hst : Stable I R P) :
    Keeps serves I R G (fun s => φ ∧ P s) p Q := by
  by_cases hφ : φ
  · exact (h hφ).weaken ((stable_const φ).and hst) (fun _ _ hp => hp.2) (fun _ _ _ hq => hq)
  · have hno : ∀ {P₀ : σ → Prop}, (∀ s, ¬ P₀ s) → Meets serves I R G p P₀ Q := by
      intro P₀ hP₀
      cases p with
      | done a => exact fun s _ hp => absurd hp (hP₀ s)
      | ask i k => exact fun s r s' _ hp => absurd hp (hP₀ s)
    exact ⟨(stable_const φ).and hst, hno fun s hp => hφ hp.1⟩

end

/-! ### All programs together -/

section

variable {T : Type} [DecidableEq T] {β : T → Type}

/-- The programs, each as far as it has come, and the state of the server. -/
structure Pool (ι : Type) (ρ : ι → Type) (σ : Type) {T : Type} (β : T → Type) where
  progs : (τ : T) → Prog ι ρ (β τ)
  state : σ

/-- One of the programs makes its next request, or the state changes by itself. -/
inductive Step (serves : σ → (i : ι) → ρ i → σ → Prop) (env : σ → σ → Prop) (c : Pool ι ρ σ β) :
    Pool ι ρ σ β → Prop
  | ask {τ : T} {i : ι} {k : ρ i → Prog ι ρ (β τ)} {r : ρ i} {s : σ} (hprog : c.progs τ = .ask i k)
      (hserve : serves c.state i r s) : Step serves env c ⟨Function.update c.progs τ (k r), s⟩
  | env {s : σ} (henv : env c.state s) : Step serves env c ⟨c.progs, s⟩

/-- The pools that are reached, with any interleaving. -/
abbrev Runs (serves : σ → (i : ι) → ρ i → σ → Prop) (env : σ → σ → Prop) :
    Pool ι ρ σ β → Pool ι ρ σ β → Prop :=
  Relation.ReflTransGen (Step serves env)

/-- The guarantees keep the invariant, and each is allowed by the relies of the others. -/
structure Fit (env : σ → σ → Prop) (I : σ → Prop) (R G : T → σ → σ → Prop) : Prop where
  inv : ∀ {τ s s'}, I s → G τ s s' → I s'
  invEnv : ∀ {s s'}, I s → env s s' → I s'
  rely : ∀ {τ τ' s s'}, τ' ≠ τ → I s → G τ' s s' → R τ s s'
  relyEnv : ∀ {τ s s'}, I s → env s s' → R τ s s'

variable {serves : σ → (i : ι) → ρ i → σ → Prop} {env : σ → σ → Prop} {I : σ → Prop}
  {R G : T → σ → σ → Prop} {Q : (τ : T) → β τ → σ → Prop} {c c' : Pool ι ρ σ β}

/-- Every program is at a point from which it keeps its promise. -/
def OnTrack (serves : σ → (i : ι) → ρ i → σ → Prop) (I : σ → Prop) (R G : T → σ → σ → Prop)
    (Q : (τ : T) → β τ → σ → Prop) (c : Pool ι ρ σ β) : Prop :=
  I c.state ∧ ∀ τ, ∃ P, P c.state ∧ Keeps serves I (R τ) (G τ) P (c.progs τ) (Q τ)

/-- **One step.**  The program that asks keeps its guarantee, which the others rely on. -/
theorem OnTrack.step (hfit : Fit env I R G) (h : OnTrack serves I R G Q c) (hs : Step serves env c c') :
    OnTrack serves I R G Q c' := by
  obtain ⟨hi, hall⟩ := h
  cases hs with
  | @ask τ i k r s hprog hserve =>
    obtain ⟨P, hP, hkeeps⟩ := hall τ
    rw [hprog] at hkeeps
    obtain ⟨hg, P', hst, hP', hmeets⟩ := hkeeps.meets _ r s hi hP hserve
    refine ⟨hfit.inv hi hg, fun τ' => ?_⟩
    by_cases heq : τ' = τ
    · subst heq
      refine ⟨P', hP', ?_⟩
      dsimp only
      rw [Function.update_self]
      exact ⟨hst, hmeets⟩
    · obtain ⟨P₁, hP₁, hk₁⟩ := hall τ'
      refine ⟨P₁, hk₁.stable _ _ hi (hfit.inv hi hg) (hfit.rely (Ne.symm heq) hi hg) hP₁, ?_⟩
      dsimp only
      rw [Function.update_of_ne heq]
      exact hk₁
  | env henv =>
    refine ⟨hfit.invEnv hi henv, fun τ' => ?_⟩
    obtain ⟨P₁, hP₁, hk₁⟩ := hall τ'
    exact ⟨P₁, hk₁.stable _ _ hi (hfit.invEnv hi henv) (hfit.relyEnv hi henv) hP₁, hk₁⟩

theorem OnTrack.run (hfit : Fit env I R G) (h : OnTrack serves I R G Q c) (hr : Runs serves env c c') :
    OnTrack serves I R G Q c' := by
  induction hr with
  | refl => exact h
  | tail _ hs ih => exact ih.step hfit hs

/-- **The invariant holds throughout, and a program that is done has kept its promise.** -/
theorem keeps_all (hfit : Fit env I R G) (h : OnTrack serves I R G Q c) (hr : Runs serves env c c') :
    I c'.state ∧ ∀ τ a, c'.progs τ = .done a → Q τ a c'.state := by
  obtain ⟨hi, hall⟩ := h.run hfit hr
  refine ⟨hi, fun τ a hdone => ?_⟩
  obtain ⟨P, hP, hkeeps⟩ := hall τ
  rw [hdone] at hkeeps
  exact hkeeps.meets _ hi hP

/-- The program comes to its end while the others wait. -/
inductive Alone {α : Type} (serves : σ → (i : ι) → ρ i → σ → Prop) : Prog ι ρ α → σ → α → σ → Prop
  | done (a : α) (s : σ) : Alone serves (.done a) s a s
  | ask {i : ι} {k : ρ i → Prog ι ρ α} {r : ρ i} {s s' s'' : σ} {a : α} (hserve : serves s i r s')
      (hk : Alone serves (k r) s' a s'') : Alone serves (.ask i k) s a s''

/-- This is one of the ways to interleave. -/
theorem runs_of_alone (τ : T) {p : Prog ι ρ (β τ)} {s s' : σ} {a : β τ} (h : Alone serves p s a s')
    (progs : (τ : T) → Prog ι ρ (β τ)) (hp : progs τ = p) :
    ∃ progs', Runs serves env ⟨progs, s⟩ ⟨progs', s'⟩ ∧ progs' τ = .done a ∧ ∀ τ' ≠ τ, progs' τ' = progs τ' := by
  induction h generalizing progs with
  | done a s => exact ⟨progs, .refl, hp, fun _ _ => rfl⟩
  | @ask i k r s s' s'' a hserve _ ih =>
    obtain ⟨progs', hr, hdone, hother⟩ := ih (Function.update progs τ (k r)) (Function.update_self _ _ _)
    refine ⟨progs', .head (Step.ask hp hserve) hr, hdone, fun τ' hne => ?_⟩
    rw [hother τ' hne, Function.update_of_ne hne]

end

end RelyGuarantee
