import Mathlib

/-!
# Chains of slots in an array

A record that does not fit one slot of an array is kept in several, each slot
holding the index of the next one (`nxt`) and, except for the first, of the one
before it (`prv`).  `Chain nxt prv i rest` says that the slots `i :: rest` hang
together in this order and that the last one ends the chain.

Three changes of the array are followed through a chain: slots outside the
chain may be rewritten (`Chain.congr`), a slot may be appended (`Chain.snoc`),
and a slot may be moved to another index when its neighbours are told
(`Chain.rename`).
-/

namespace SlotChain

variable {ι : Type*} {nxt nxt' : ι → Option ι} {prv prv' : ι → ι}

/-- The slots `i :: rest` form one chain. -/
def Chain (nxt : ι → Option ι) (prv : ι → ι) : ι → List ι → Prop
  | i, [] => nxt i = none
  | i, j :: rest => nxt i = some j ∧ prv j = i ∧ Chain nxt prv j rest

theorem Chain.congr : ∀ {i : ι} {rest : List ι}, Chain nxt prv i rest →
    (∀ x ∈ i :: rest, nxt' x = nxt x) → (∀ x ∈ rest, prv' x = prv x) → Chain nxt' prv' i rest := by
  intro i rest
  induction rest generalizing i with
  | nil => intro h hn _; exact (hn i (by simp)).trans h
  | cons j rest ih =>
    intro h hn hp
    exact ⟨(hn i (by simp)).trans h.1, (hp j (by simp)).trans h.2.1,
      ih h.2.2 (fun x hx => hn x (List.mem_cons_of_mem _ hx))
        (fun x hx => hp x (List.mem_cons_of_mem _ hx))⟩

/-- A slot of the chain is followed by another one, which points back to it, or
ends the chain. -/
theorem Chain.nxt_eq : ∀ {i : ι} {rest : List ι}, Chain nxt prv i rest → ∀ {a : ι}, a ∈ i :: rest →
    nxt a = none ∨ ∃ b ∈ rest, nxt a = some b ∧ prv b = a := by
  intro i rest
  induction rest generalizing i with
  | nil =>
    intro h a ha
    rw [List.mem_singleton] at ha
    exact Or.inl (ha ▸ h)
  | cons j rest ih =>
    intro h a ha
    rcases List.mem_cons.mp ha with rfl | ha
    · exact Or.inr ⟨j, by simp, h.1, h.2.1⟩
    · rcases ih h.2.2 ha with h0 | ⟨b, hb, hab⟩
      · exact Or.inl h0
      · exact Or.inr ⟨b, List.mem_cons_of_mem _ hb, hab⟩

/-- Every slot but the first points back to the slot that points to it. -/
theorem Chain.prv_mem : ∀ {i : ι} {rest : List ι}, Chain nxt prv i rest → ∀ {a : ι}, a ∈ rest →
    prv a ∈ i :: rest ∧ nxt (prv a) = some a := by
  intro i rest
  induction rest generalizing i with
  | nil => intro _ a ha; exact absurd ha (by simp)
  | cons j rest ih =>
    intro h a ha
    rcases List.mem_cons.mp ha with rfl | ha
    · rw [h.2.1]; exact ⟨by simp, h.1⟩
    · obtain ⟨hm, hn⟩ := ih h.2.2 ha
      exact ⟨List.mem_cons_of_mem _ hm, hn⟩

/-- A chain does not run back to the slot it came from. -/
theorem Chain.nxt_nxt_ne : ∀ {i : ι} {rest : List ι}, Chain nxt prv i rest → (i :: rest).Nodup →
    ∀ {a x : ι}, a ∈ i :: rest → nxt a = some x → nxt x ≠ some a := by
  intro i rest
  induction rest generalizing i with
  | nil =>
    intro h _ a x ha hx
    rw [List.mem_singleton.mp ha, show nxt i = none from h] at hx
    exact absurd hx (by simp)
  | cons j rest ih =>
    intro h hnd a x ha hx hback
    obtain ⟨hi, hnd'⟩ := List.nodup_cons.mp hnd
    rcases List.mem_cons.mp ha with rfl | ha
    · rw [h.1, Option.some_inj] at hx
      subst hx
      rcases h.2.2.nxt_eq List.mem_cons_self with h0 | ⟨b, hb, hjb, _⟩
      · exact absurd (hback.symm.trans h0) (by simp)
      · rw [Option.some_inj.mp (hback.symm.trans hjb)] at hi
        exact hi (List.mem_cons_of_mem _ hb)
    · exact ih h.2.2 hnd' ha hx hback

/-- **A slot appended behind the last one.** -/
theorem Chain.snoc {b : ι} : ∀ {i : ι} {rest : List ι}, Chain nxt prv i rest → (i :: rest).Nodup →
    (∀ x ∈ i :: rest, x ≠ (i :: rest).getLast (by simp) → nxt' x = nxt x) →
    (∀ x ∈ rest, prv' x = prv x) → nxt' ((i :: rest).getLast (by simp)) = some b →
    prv' b = (i :: rest).getLast (by simp) → nxt' b = none → Chain nxt' prv' i (rest ++ [b]) := by
  intro i rest
  induction rest generalizing i with
  | nil => intro _ _ _ _ hlast hback hend; exact ⟨hlast, hback, hend⟩
  | cons j rest ih =>
    intro h hnd hn hp hlast hback hend
    rw [List.getLast_cons (by simp : j :: rest ≠ [])] at hlast hback
    simp only [List.getLast_cons (by simp : j :: rest ≠ [])] at hn
    have hij : i ≠ (j :: rest).getLast (by simp) := by
      intro he
      exact (List.nodup_cons.mp hnd).1 (he ▸ List.getLast_mem _)
    refine ⟨(hn i (by simp) hij).trans h.1, (hp j (by simp)).trans h.2.1, ?_⟩
    exact ih h.2.2 (List.nodup_cons.mp hnd).2 (fun x hx => hn x (List.mem_cons_of_mem _ hx))
      (fun x hx => hp x (List.mem_cons_of_mem _ hx)) hlast hback hend

/-- The index of a slot after the slot `a` was moved to `b`. -/
def moved [DecidableEq ι] (a b x : ι) : ι := if x = a then b else x

@[simp] theorem moved_self [DecidableEq ι] (a b : ι) : moved a b a = b := if_pos rfl

theorem moved_of_ne [DecidableEq ι] {a b x : ι} (h : x ≠ a) : moved a b x = x := if_neg h

theorem map_moved_of_ne [DecidableEq ι] {a b : ι} {o : Option ι} (h : o ≠ some a) :
    o.map (moved a b) = o := by
  cases o with
  | none => rfl
  | some x => rw [Option.map_some, moved_of_ne (fun hx => h (congrArg some hx))]

/-- **A slot moved to another index.**  The slot that pointed to `a` now points
to `b`, the slot behind it points back to `b`, and nothing else of the chain
changes. -/
theorem Chain.rename [DecidableEq ι] {a b : ι} (hb : nxt' b = nxt a) (hpb : prv' b = prv a) :
    ∀ {i : ι} {rest : List ι}, Chain nxt prv i rest → (i :: rest).Nodup →
      (∀ x ∈ i :: rest, x ≠ a → nxt' x = (nxt x).map (moved a b)) →
      (∀ x ∈ rest, x ≠ a → prv' x = moved a b (prv x)) →
      Chain nxt' prv' (moved a b i) (rest.map (moved a b)) := by
  intro i rest
  induction rest generalizing i with
  | nil =>
    intro h _ hn _
    by_cases hia : i = a
    · rw [hia, moved_self]
      exact hb.trans (hia ▸ h)
    · rw [moved_of_ne hia]
      refine (hn i (by simp) hia).trans ?_
      rw [show nxt i = none from h, Option.map_none]
  | cons j rest ih =>
    intro h hnd hn hp
    have hij : i ≠ j := fun he => (List.nodup_cons.mp hnd).1 (by simp [he])
    refine ⟨?_, ?_, ih h.2.2 (List.nodup_cons.mp hnd).2
      (fun x hx => hn x (List.mem_cons_of_mem _ hx)) (fun x hx => hp x (List.mem_cons_of_mem _ hx))⟩
    · by_cases hia : i = a
      · rw [hia, moved_self, moved_of_ne (fun hja => hij (hia.trans hja.symm)), hb, ← hia, h.1]
      · rw [moved_of_ne hia, hn i (by simp) hia, h.1, Option.map_some]
    · by_cases hja : j = a
      · rw [hja, moved_self, hpb, ← hja, h.2.1, moved_of_ne hij]
      · rw [moved_of_ne hja, hp j (by simp) hja, h.2.1]

end SlotChain
