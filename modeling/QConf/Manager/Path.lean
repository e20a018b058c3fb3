import QConf.Lib.Trim
import QConf.Manager.Gray

/-!
# Normalised paths

`path_normalize` takes the slashes off both ends of a path and puts one in front, and
`zk_path` does so if all characters are of its pattern.  A path that came out of either is
left as it is by both.
-/

namespace QConf.Manager

open Trim

theorem pathNormalize_eq (raw : Bytes) : pathNormalize raw =
    if trim (· == slash) raw = [] then none else some (slash :: trim (· == slash) raw) := rfl

/-- `path_normalize` takes the slashes off both ends. -/
theorem pathNormalize_some {raw p : Bytes} (h : pathNormalize raw = some p) :
    trim (· == slash) raw ≠ [] ∧ p = slash :: trim (· == slash) raw := by
  rw [pathNormalize_eq] at h
  split at h
  · cases h
  · next hne => exact ⟨hne, (Option.some.inj h).symm⟩

/-- A path is normalised once. -/
theorem pathNormalize_idem {raw p : Bytes} (h : pathNormalize raw = some p) : pathNormalize p = some p := by
  obtain ⟨hne, rfl⟩ := pathNormalize_some h
  rw [pathNormalize_eq, trim_cons rfl, trim_trim, if_neg hne]

theorem pathNormalize_nulFree {raw p : Bytes} (h : pathNormalize raw = some p) (hraw : NulFree raw) :
    NulFree p := by
  obtain ⟨-, rfl⟩ := pathNormalize_some h
  intro hm
  rcases List.mem_cons.mp hm with h0 | hm
  · exact absurd h0 (by decide)
  · exact hraw (mem_of_mem_trim hm)

/-- `zk_path` of a path that is normalised already. -/
theorem zkPath_normal {raw p : Bytes} (h : pathNormalize raw = some p) (hp : NulFree p) :
    zkPath p = if p.all pathChar then some p else none := by
  have hne : p ≠ [] := by simp [(pathNormalize_some h).2]
  rw [zkPath, if_neg hne, cStr_of_nulFree hp, pathNormalize_idem h]
  simp [hne]

/-- Behind its test of the characters `zk_path` is `path_normalize`. -/
theorem zkPath_some {raw p : Bytes} (h : zkPath raw = some p) :
    raw ≠ [] ∧ (cStr raw).all pathChar = true ∧ pathNormalize raw = some p := by
  rw [zkPath] at h
  split at h
  · cases h
  · next hne =>
    split at h
    · next hchars => exact ⟨hne, hchars.2, h⟩
    · cases h

/-- What `zk_path` gives is a path to `zk_path`. -/
theorem zkPath_idem {raw p : Bytes} (h : zkPath raw = some p) (hp : NulFree p) : zkPath p = some p := by
  obtain ⟨-, hchars, hnorm⟩ := zkPath_some h
  obtain ⟨-, hpeq⟩ := pathNormalize_some hnorm
  rw [zkPath_normal hnorm hp, if_pos]
  -- a NUL byte is taken off neither end
  have hraw : NulFree raw := by
    obtain ⟨pre, post, hs⟩ := exists_split (· == slash) raw
    intro hm
    rw [hs.eq, List.mem_append, List.mem_append] at hm
    rcases hm with hm | hm | hm
    · exact absurd (hs.pre _ hm) (by decide)
    · exact hp (by rw [hpeq]; exact List.mem_cons_of_mem _ hm)
    · exact absurd (hs.post _ hm) (by decide)
  rw [cStr_of_nulFree hraw, List.all_eq_true] at hchars
  rw [hpeq, List.all_cons, Bool.and_eq_true, List.all_eq_true]
  exact ⟨by decide, fun b hb => hchars b (mem_of_mem_trim hb)⟩

end QConf.Manager
