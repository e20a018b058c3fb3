import Mathlib

/-!
# Reading a memory that others write

A program looks at a memory of type `μ` at one instant after the other, and the memory may be another
one at each instant: `mem n` is what it sees at the instant `n`.  What goes wrong is a fault of type
`ε`.

`Safe I p Q` is the triple of such programs.  If every memory from now on satisfies `I`, then `p`
ends without a fault, with a result that satisfies `Q`.  Nothing is said of how one memory comes from
the one before, so a safe program is safe in every interleaving with those who write.

`Yields p t a` is what `p` does while nobody writes.
-/

namespace RacyRead

variable {μ ε α β : Type}

/-- A program that reads.  It is given the memories and the instant, and goes on to a later one. -/
def Reads (μ ε α : Type) : Type := (Nat → μ) → Nat → Except ε (α × Nat)

instance : Monad (Reads μ ε) where
  pure a := fun _ n => .ok (a, n)
  bind p f := fun mem n => (p mem n).bind (fun r => f r.1 mem r.2)

theorem bind_apply (p : Reads μ ε α) (f : α → Reads μ ε β) (mem : Nat → μ) (n : Nat) :
    (p >>= f) mem n = (p mem n).bind (fun r => f r.1 mem r.2) := rfl

/-- One look at the memory. -/
def look (f : μ → α) : Reads μ ε α := fun mem n => .ok (f (mem n), n + 1)

def fault (e : ε) : Reads μ ε α := fun _ _ => .error e

/-- The program ends well in every memory that satisfies `I` from now on. -/
def Safe (I : μ → Prop) (p : Reads μ ε α) (Q : α → Prop) : Prop :=
  ∀ mem n, (∀ k, n ≤ k → I (mem k)) → ∃ a n', p mem n = .ok (a, n') ∧ n ≤ n' ∧ Q a

section

variable {I : μ → Prop} {p : Reads μ ε α} {f : α → Reads μ ε β} {Q : α → Prop} {R : β → Prop}

theorem Safe.pure {a : α} (h : Q a) : Safe I (Pure.pure a : Reads μ ε α) Q :=
  fun _ n _ => ⟨a, n, rfl, Nat.le_refl n, h⟩

theorem Safe.bind (hp : Safe I p Q) (hf : ∀ a, Q a → Safe I (f a) R) : Safe I (p >>= f) R := by
  intro mem n hI
  obtain ⟨a, n₁, hpa, hn, ha⟩ := hp mem n hI
  obtain ⟨b, n₂, hfb, hn', hb⟩ := hf a ha mem n₁ (fun k hk => hI k (Nat.le_trans hn hk))
  refine ⟨b, n₂, ?_, Nat.le_trans hn hn', hb⟩
  rw [bind_apply, hpa]
  exact hfb

theorem Safe.look {g : μ → α} (h : ∀ m, I m → Q (g m)) : Safe I (look g : Reads μ ε α) Q :=
  fun mem n hI => ⟨g (mem n), n + 1, rfl, Nat.le_succ n, h _ (hI n (Nat.le_refl n))⟩

theorem Safe.weaken (hp : Safe I p Q) {Q' : α → Prop} (h : ∀ a, Q a → Q' a) : Safe I p Q' := by
  intro mem n hI
  obtain ⟨a, n', hpa, hn, ha⟩ := hp mem n hI
  exact ⟨a, n', hpa, hn, h a ha⟩

theorem Safe.ite {c : Prop} [Decidable c] {q : Reads μ ε α} (hp : c → Safe I p Q) (hq : ¬ c → Safe I q Q) :
    Safe I (if c then p else q) Q := by
  split
  · next hc => exact hp hc
  · next hc => exact hq hc

end

/-- What the program gives while the memory stays as it is. -/
def Yields (p : Reads μ ε α) (t : μ) (a : α) : Prop := ∀ n, ∃ n', p (fun _ => t) n = .ok (a, n')

section

variable {p : Reads μ ε α} {f : α → Reads μ ε β} {t : μ} {a : α} {b : β}

theorem Yields.pure (a : α) (t : μ) : Yields (Pure.pure a : Reads μ ε α) t a := fun n => ⟨n, rfl⟩

theorem Yields.bind (hp : Yields p t a) (hf : Yields (f a) t b) : Yields (p >>= f) t b := by
  intro n
  obtain ⟨n₁, hpa⟩ := hp n
  obtain ⟨n₂, hfb⟩ := hf n₁
  refine ⟨n₂, ?_⟩
  rw [bind_apply, hpa]
  exact hfb

theorem Yields.look (g : μ → α) (t : μ) : Yields (look g : Reads μ ε α) t (g t) := fun n => ⟨n + 1, rfl⟩

end

end RacyRead
