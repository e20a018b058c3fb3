import Mathlib

/-!
# Going once round an array

A search through a fixed array starts at some index, steps with wrap-around and
stops when it is back at its start.  `rotation n s` is the list of the indices it
meets, in order; a loop of this shape is a recursion along that list
(`rotation_next`, `rotation_last`), and the list is the whole array (`rotation_perm`).
-/

namespace Ring

/-- The index after `i` in an array of `n` slots. -/
def next (n i : Nat) : Nat := if n ≤ i + 1 then 0 else i + 1

/-- The indices met on the way round an array of `n` slots from `s` on. -/
def rotation (n s : Nat) : List Nat := (List.range' s (n - s)) ++ List.range s

theorem rotation_perm {n s : Nat} (h : s ≤ n) : (rotation n s).Perm (List.range n) := by
  have hsplit : List.range n = List.range s ++ List.range' s (n - s) := by
    have happ := List.range'_append_1 (s := 0) (m := s) (n := n - s)
    rw [Nat.zero_add, show s + (n - s) = n by omega] at happ
    rw [List.range_eq_range', List.range_eq_range', happ]
  rw [hsplit]
  exact List.perm_append_comm

theorem mem_rotation {n s i : Nat} (h : s ≤ n) : i ∈ rotation n s ↔ i < n := by
  rw [(rotation_perm h).mem_iff, List.mem_range]

theorem rotation_nodup {n s : Nat} (h : s ≤ n) : (rotation n s).Nodup :=
  (rotation_perm h).nodup_iff.mpr List.nodup_range

theorem rotation_length {n s : Nat} (h : s ≤ n) : (rotation n s).length = n := by
  rw [(rotation_perm h).length_eq, List.length_range]

theorem getElem?_rotation {n s j : Nat} (h : s < n) :
    (rotation n s)[j]? = if j < n then some (if s + j < n then s + j else s + j - n) else none := by
  unfold rotation
  by_cases hj : j < n - s
  · rw [List.getElem?_append_left (by simpa using hj), List.getElem?_range' hj, if_pos (by omega),
      if_pos (by omega), Nat.one_mul]
  · rw [List.getElem?_append_right (by simpa using Nat.le_of_not_lt hj), List.length_range']
    by_cases hjn : j < n
    · rw [List.getElem?_range (by omega), if_pos hjn, if_neg (by omega)]
      congr 1
      omega
    · rw [if_neg hjn, List.getElem?_eq_none (by simp; omega)]

/-- **One step of the way round**: behind `i` the list goes on with the next
index. -/
theorem rotation_next {n s i j : Nat} {pre suf : List Nat} (h : s < n)
    (hr : rotation n s = pre ++ i :: j :: suf) : j = next n i ∧ next n i ≠ s := by
  have hi : (rotation n s)[pre.length]? = some i := by rw [hr]; simp
  have hj : (rotation n s)[pre.length + 1]? = some j := by
    rw [hr, List.getElem?_append_right (by omega)]
    simp
  have hlen : n = pre.length + (suf.length + 2) := by
    rw [← rotation_length (Nat.le_of_lt h), hr]
    simp
  rw [getElem?_rotation h, if_pos (by omega), Option.some_inj] at hi hj
  unfold next
  split at hi <;> split at hj <;> split <;> omega

/-- **The end of the way round**: the next index is the start again. -/
theorem rotation_last {n s i : Nat} {pre : List Nat} (h : s < n)
    (hr : rotation n s = pre ++ [i]) : next n i = s := by
  have hi : (rotation n s)[pre.length]? = some i := by rw [hr]; simp
  have hlen : n = pre.length + 1 := by
    rw [← rotation_length (Nat.le_of_lt h), hr]
    simp
  rw [getElem?_rotation h, if_pos (by omega), Option.some_inj] at hi
  unfold next
  split at hi <;> split <;> omega

theorem rotation_eq_cons {n s : Nat} (h : s < n) : ∃ suf, rotation n s = s :: suf := by
  refine ⟨List.range' (s + 1) (n - s - 1) ++ List.range s, ?_⟩
  rw [rotation, show n - s = (n - s - 1) + 1 by omega, List.range'_succ]
  rfl

end Ring
