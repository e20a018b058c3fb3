import Mathlib

/-!
# Replaying assignments on a finite map

An entry of a log assigns a value to a key, or takes the key away.  What the
replay of a log leaves at a key is decided by the last entry for that key.
-/

namespace KeyedLog

variable {κ : Type*} {ν : Type*} [DecidableEq κ]

/-- One entry: the key, and its new value or `none`. -/
abbrev Entry (κ ν : Type*) := κ × Option ν

def assign (m : Finmap (fun _ : κ => ν)) (e : Entry κ ν) : Finmap (fun _ : κ => ν) :=
  match e.2 with
  | some v => m.insert e.1 v
  | none => m.erase e.1

def replay (m : Finmap (fun _ : κ => ν)) (l : List (Entry κ ν)) : Finmap (fun _ : κ => ν) :=
  l.foldl assign m

theorem lookup_assign_self (m : Finmap (fun _ : κ => ν)) (e : Entry κ ν) :
    (assign m e).lookup e.1 = e.2 := by
  unfold assign
  cases h : e.2 with
  | some v => exact Finmap.lookup_insert m
  | none => exact Finmap.lookup_erase e.1 m

theorem lookup_assign_of_ne (m : Finmap (fun _ : κ => ν)) {e : Entry κ ν} {k : κ} (h : k ≠ e.1) :
    (assign m e).lookup k = m.lookup k := by
  unfold assign
  cases e.2 with
  | some v => exact Finmap.lookup_insert_of_ne m h
  | none => exact Finmap.lookup_erase_ne h

theorem replay_append (m : Finmap (fun _ : κ => ν)) (l l' : List (Entry κ ν)) :
    replay m (l ++ l') = replay (replay m l) l' := List.foldl_append

/-- A log without an entry for the key leaves it alone. -/
theorem lookup_replay_of_ne {k : κ} : ∀ (l : List (Entry κ ν)) (m : Finmap (fun _ : κ => ν)),
    (∀ e ∈ l, e.1 ≠ k) → (replay m l).lookup k = m.lookup k := by
  intro l
  induction l with
  | nil => intro m _; rfl
  | cons e l ih =>
    intro m h
    have he : k ≠ e.1 := fun hk => h e List.mem_cons_self hk.symm
    exact (ih (assign m e) (fun e' he' => h e' (List.mem_cons_of_mem _ he'))).trans
      (lookup_assign_of_ne m he)

/-- **The last entry for a key decides.** -/
theorem lookup_replay_last (m : Finmap (fun _ : κ => ν)) (l l' : List (Entry κ ν)) (e : Entry κ ν)
    (h : ∀ e' ∈ l', e'.1 ≠ e.1) : (replay m (l ++ e :: l')).lookup e.1 = e.2 := by
  rw [replay_append]
  exact (lookup_replay_of_ne l' _ h).trans (lookup_assign_self _ e)

end KeyedLog
