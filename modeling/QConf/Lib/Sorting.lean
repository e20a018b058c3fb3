import Mathlib

/-!
# The sorted list of a finite set

A set that is iterated in the order of its elements, or a list of distinct
elements that was sorted, is one list.  It is `Finset.sort`, whose merge sort does
not evaluate by reduction; `sortedList` computes it by insertion sort, and
everything that is known of it is known of `Finset.sort` (`sortedList_eq_sort`).
-/

namespace Sorting

variable {α : Type*} (r : α → α → Prop) [DecidableRel r] [Std.Total r] [IsTrans α r]
  [Std.Antisymm r]

theorem insertionSort_eq_sort (l : List α) : l.insertionSort r = Multiset.sort (l : Multiset α) r :=
  (List.mergeSort_eq_insertionSort r l).symm

/-- The elements of `s` in order. -/
def sortedList (s : Finset α) : List α :=
  Quot.liftOn s.1 (fun l => l.insertionSort r) (fun l l' h => by
    rw [insertionSort_eq_sort, insertionSort_eq_sort, Multiset.coe_eq_coe.mpr h])

variable {r}

theorem sortedList_eq_sort (s : Finset α) : sortedList r s = s.sort r := by
  obtain ⟨m, hm⟩ := s
  induction m using Quot.inductionOn with
  | h l => exact insertionSort_eq_sort r l

@[simp] theorem mem_sortedList {s : Finset α} {a : α} : a ∈ sortedList r s ↔ a ∈ s := by
  rw [sortedList_eq_sort, Finset.mem_sort]

theorem nodup_sortedList (s : Finset α) : (sortedList r s).Nodup := by
  rw [sortedList_eq_sort]
  exact s.sort_nodup r

theorem pairwise_sortedList (s : Finset α) : (sortedList r s).Pairwise r := by
  rw [sortedList_eq_sort]
  exact s.pairwise_sort r

/-- A sorted list of distinct elements is the sorted list of its set. -/
theorem eq_sortedList {l : List α} {s : Finset α} (hl : l.Pairwise r) (hn : l.Nodup)
    (hmem : ∀ a, a ∈ l ↔ a ∈ s) : l = sortedList r s := by
  refine List.Perm.eq_of_pairwise (fun a b _ _ hab hba => antisymm hab hba) hl (pairwise_sortedList s) ?_
  refine (List.perm_ext_iff_of_nodup hn (nodup_sortedList s)).mpr (fun a => ?_)
  rw [hmem, mem_sortedList]

/-- **A list of distinct elements, sorted**, is the sorted list of its set. -/
theorem insertionSort_eq_sortedList [DecidableEq α] {l : List α} (hl : l.Nodup) :
    l.insertionSort r = sortedList r l.toFinset := by
  rw [← List.toFinset_eq hl]
  rfl

end Sorting
