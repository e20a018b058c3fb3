import Mathlib

/-!
# A buffer of a declared size

An array that is declared with `n` elements is a vector of `n` elements, and every access
through it is checked: a store or a load that touches an element behind the array gives `none`.
A copy to the front of the array goes through exactly if the array has room for it
(`copyTo_room`, `copyTo_no_room`), and then the elements can be loaded again.
-/

namespace CheckedBuffer

variable {α : Type} {n : Nat}

/-- `buf[i] = a`. -/
def store (buf : Vector α n) (i : Nat) (a : α) : Option (Vector α n) :=
  if h : i < n then some (buf.set i a h) else none

/-- The elements of a list one by one, from the index `i` on. -/
def copyTo : Vector α n → Nat → List α → Option (Vector α n)
  | buf, _, [] => some buf
  | buf, i, a :: as => (store buf i a).bind (fun buf => copyTo buf (i + 1) as)

/-- The first `k` elements. -/
def load (buf : Vector α n) (k : Nat) : Option (List α) := if k ≤ n then some (buf.toList.take k) else none

theorem store_inside {i : Nat} (h : i < n) (buf : Vector α n) (a : α) : store buf i a = some (buf.set i a h) :=
  dif_pos h

theorem store_outside {i : Nat} (h : n ≤ i) (buf : Vector α n) (a : α) : store buf i a = none :=
  dif_neg (Nat.not_lt.mpr h)

/-- What a copy leaves alone, and what it puts between. -/
theorem copyTo_inside {as : List α} : ∀ (buf : Vector α n) (i : Nat), i + as.length ≤ n →
    ∃ buf', copyTo buf i as = some buf' ∧
      buf'.toList = buf.toList.take i ++ as ++ buf.toList.drop (i + as.length) := by
  induction as with
  | nil =>
    intro buf i _
    exact ⟨buf, rfl, by simp⟩
  | cons a as ih =>
    intro buf i h
    rw [List.length_cons] at h
    have hi : i < n := by omega
    obtain ⟨buf', hcopy, hlist⟩ := ih (buf.set i a hi) (i + 1) (by omega)
    refine ⟨buf', ?_, ?_⟩
    · rw [copyTo, store_inside hi]
      exact hcopy
    · have hlen : i < buf.toList.length := by rw [Vector.length_toList]; exact hi
      have hfront : (buf.toList.set i a).take (i + 1) = buf.toList.take i ++ [a] := by
        rw [List.take_set, List.take_succ_eq_append_getElem hlen, List.set_append_right _ _ (by simp),
          List.length_take, Nat.min_eq_left (Nat.le_of_lt hlen), Nat.sub_self]
        rfl
      have hback : (buf.toList.set i a).drop (i + 1 + as.length) = buf.toList.drop (i + (as.length + 1)) := by
        rw [List.drop_set_of_lt (by omega), Nat.add_assoc, Nat.add_comm 1]
      rw [hlist, Vector.toList_set, hfront, hback, List.length_cons]
      simp

/-- A copy that does not end inside is not made. -/
theorem copyTo_outside {as : List α} : ∀ (buf : Vector α n) (i : Nat), i ≤ n → n < i + as.length →
    copyTo buf i as = none := by
  induction as with
  | nil =>
    intro buf i hi h
    exact absurd h (Nat.not_lt.mpr hi)
  | cons a as ih =>
    intro buf i hi h
    rw [List.length_cons] at h
    rw [copyTo]
    rcases Nat.lt_or_eq_of_le hi with hlt | heq
    · rw [store_inside hlt]
      exact ih _ _ hlt (by omega)
    · rw [store_outside (Nat.le_of_eq heq.symm)]
      rfl

/-- **With room for all of them the elements are in the array.** -/
theorem copyTo_room {as : List α} (h : as.length ≤ n) (buf : Vector α n) :
    ∃ buf', copyTo buf 0 as = some buf' ∧ load buf' as.length = some as := by
  obtain ⟨buf', hcopy, hlist⟩ := copyTo_inside buf 0 (by rwa [Nat.zero_add])
  refine ⟨buf', hcopy, ?_⟩
  rw [load, if_pos h, hlist, List.take_zero, List.nil_append, List.take_left]

/-- **Without room the copy leaves the array.** -/
theorem copyTo_no_room {as : List α} (h : n < as.length) (buf : Vector α n) : copyTo buf 0 as = none :=
  copyTo_outside buf 0 (Nat.zero_le n) (by rwa [Nat.zero_add])

end CheckedBuffer
