import Mathlib

/-!
# Reading a text line by line

A text is read in pieces, each of at most `room` elements, that end behind the first `nl`.
Where every line of the text has room for itself and its `nl`, the pieces are the lines: each
but the last with its `nl`, and the last only if it is not empty (`forLines_intercalate`).
-/

namespace Lines

variable {α σ : Type} [DecidableEq α]

/-- The next piece, and the text behind it. -/
def next (nl : α) : Nat → List α → List α × List α
  | 0, t => ([], t)
  | _ + 1, [] => ([], [])
  | n + 1, a :: t => if a = nl then ([a], t) else (a :: (next nl n t).1, (next nl n t).2)

/-- `step` on every piece of the text. -/
def forLines (nl : α) (room : Nat) (step : σ → List α → σ) : Nat → List α → σ → σ
  | 0, _, s => s
  | _ + 1, [], s => s
  | fuel + 1, a :: t, s =>
    forLines nl room step fuel (next nl room (a :: t)).2 (step s (next nl room (a :: t)).1)

section

variable {nl : α} {l t : List α} {room : Nat}

theorem findIdx?_of_notMem (hl : nl ∉ l) : l.findIdx? (· == nl) = none := by
  rw [List.findIdx?_eq_none_iff]
  exact fun x hx => beq_false_of_ne (fun h => hl (h ▸ hx))

/-- The first `nl` stands behind the first line. -/
theorem findIdx?_line (hl : nl ∉ l) : (l ++ nl :: t).findIdx? (· == nl) = some l.length := by
  rw [List.findIdx?_append, findIdx?_of_notMem hl]
  simp [List.findIdx?_cons]

/-- A line is a part of the text without `nl`. -/
theorem sublist_of_mem_splitOn (h : l ∈ t.splitOn nl) : l.Sublist t ∧ nl ∉ l := by
  induction t generalizing l with
  | nil =>
    rw [List.splitOn_nil, List.mem_singleton] at h
    rw [h]
    exact ⟨List.Sublist.refl _, List.not_mem_nil⟩
  | cons a t ih =>
    obtain ⟨l₀, ls, htail⟩ := List.exists_cons_of_ne_nil (List.splitOn_ne_nil nl t)
    rw [htail] at ih
    rw [List.splitOn_cons_eq_if_modifyHead, htail] at h
    split at h
    · rcases List.mem_cons.mp h with rfl | h
      · exact ⟨List.nil_sublist _, List.not_mem_nil⟩
      · exact ⟨(ih h).1.cons a, (ih h).2⟩
    · next ha =>
      rw [List.modifyHead_cons] at h
      rcases List.mem_cons.mp h with rfl | h
      · -- the first line begins with `a`
        have hfirst := ih List.mem_cons_self
        refine ⟨hfirst.1.cons_cons a, fun hm => ?_⟩
        rcases List.mem_cons.mp hm with h0 | hm
        · exact ha (beq_iff_eq.mpr h0.symm)
        · exact hfirst.2 hm
      · have hlater := ih (List.mem_cons_of_mem _ h)
        exact ⟨hlater.1.cons a, hlater.2⟩

/-- A line with its end. -/
theorem next_line (hl : nl ∉ l) (hroom : l.length < room) : next nl room (l ++ nl :: t) = (l ++ [nl], t) := by
  induction l generalizing room with
  | nil =>
    obtain ⟨n, rfl⟩ : ∃ n, room = n + 1 := ⟨room - 1, by simp at hroom; omega⟩
    rw [List.nil_append, next, if_pos rfl]
    rfl
  | cons a l ih =>
    obtain ⟨n, rfl⟩ : ∃ n, room = n + 1 := ⟨room - 1, by simp at hroom; omega⟩
    rw [List.mem_cons, not_or] at hl
    rw [List.cons_append, next, if_neg (Ne.symm hl.1), ih hl.2 (by simpa using hroom)]
    rfl

/-- A line without an end. -/
theorem next_last (hl : nl ∉ l) (hroom : l.length ≤ room) : next nl room l = (l, []) := by
  induction l generalizing room with
  | nil => cases room <;> rfl
  | cons a l ih =>
    obtain ⟨n, rfl⟩ : ∃ n, room = n + 1 := ⟨room - 1, by simp at hroom; omega⟩
    rw [List.mem_cons, not_or] at hl
    rw [next, if_neg (Ne.symm hl.1), ih hl.2 (by simpa using hroom)]

variable {step : σ → List α → σ}

theorem forLines_line {fuel : Nat} (hl : nl ∉ l) (hroom : l.length < room) (s : σ) :
    forLines nl room step (fuel + 1) (l ++ nl :: t) s = forLines nl room step fuel t (step s (l ++ [nl])) := by
  obtain ⟨a, t', htext⟩ : ∃ a t', l ++ nl :: t = a :: t' := by
    cases l with
    | nil => exact ⟨nl, t, rfl⟩
    | cons a l => exact ⟨a, l ++ nl :: t, rfl⟩
  rw [htext, forLines, ← htext, next_line hl hroom]

theorem forLines_last {fuel : Nat} (hl : nl ∉ l) (hroom : l.length ≤ room) (hne : l ≠ []) (hfuel : l.length ≤ fuel)
    (s : σ) : forLines nl room step fuel l s = step s l := by
  obtain ⟨a, l', rfl⟩ := List.exists_cons_of_ne_nil hne
  obtain ⟨n, rfl⟩ : ∃ n, fuel = n + 1 := ⟨fuel - 1, by simp at hfuel; omega⟩
  rw [forLines, next_last hl hroom]
  cases n <;> rfl

variable (step) in
/-- **The pieces of a text are its lines.** -/
theorem forLines_intercalate (last : List α) (hlast : nl ∉ last) (hroom : last.length ≤ room) :
    ∀ (ls : List (List α)) (fuel : Nat) (s : σ), (∀ l ∈ ls, nl ∉ l ∧ l.length < room) →
      ([nl].intercalate (ls ++ [last])).length ≤ fuel →
      forLines nl room step fuel ([nl].intercalate (ls ++ [last])) s =
        if last = [] then (ls.map (· ++ [nl])).foldl step s
        else step ((ls.map (· ++ [nl])).foldl step s) last := by
  intro ls
  induction ls with
  | nil =>
    intro fuel s _ hfuel
    simp only [List.nil_append, List.intercalate_singleton] at hfuel ⊢
    split
    · next h0 =>
      rw [h0]
      cases fuel <;> rfl
    · next hne => exact forLines_last hlast hroom hne hfuel s
  | cons l ls ih =>
    intro fuel s hls hfuel
    obtain ⟨l', ls', htail⟩ : ∃ l' ls', ls ++ [last] = l' :: ls' := by
      cases ls with
      | nil => exact ⟨last, [], rfl⟩
      | cons l' ls => exact ⟨l', ls ++ [last], rfl⟩
    have htext : [nl].intercalate (l :: ls ++ [last]) = l ++ nl :: [nl].intercalate (ls ++ [last]) := by
      rw [List.cons_append, htail, List.intercalate_cons_cons]
      simp
    obtain ⟨hl, hlen⟩ := hls l List.mem_cons_self
    rw [htext] at hfuel ⊢
    obtain ⟨n, rfl⟩ : ∃ n, fuel = n + 1 := ⟨fuel - 1, by simp at hfuel; omega⟩
    rw [forLines_line hl hlen, ih n _ (fun l' h' => hls l' (List.mem_cons_of_mem _ h')) (by simp at hfuel; omega)]
    rfl

end

end Lines
