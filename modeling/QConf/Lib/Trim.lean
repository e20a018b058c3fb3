import Mathlib

/-!
# Taking a character off both ends of a string

`trim p l` is `l` without its longest prefix and its longest suffix of elements with `p`.  It is
determined by where it stands in `l`: between two parts of elements with `p`, with an end that
has `p` on neither side (`Split`).

C code computes it with two pointers into an array that ends with a terminator, one going up
and one going down.  The loops read before they compare the pointers, so that the reads may
leave the array; `pointers` is undefined (`none`) then.  For a string that is not empty they
never do (`pointers_spec`).
-/

namespace Trim

variable {α : Type}

/-! ### What is left between the ends -/

/-- `l` without the elements with `p` at its ends. -/
def trim (p : α → Bool) (l : List α) : List α := ((l.dropWhile p).reverse.dropWhile p).reverse

/-- `body` stands in `l` between elements with `p`, and neither end of it has `p`. -/
structure Split (p : α → Bool) (l pre body post : List α) : Prop where
  eq : l = pre ++ (body ++ post)
  pre : ∀ a ∈ pre, p a = true
  post : ∀ a ∈ post, p a = true
  head : ∀ a, body.head? = some a → p a = false
  last : ∀ a, body.getLast? = some a → p a = false

section

variable {p : α → Bool} {l pre body post : List α}

theorem dropWhile_of_head (h : ∀ a, l.head? = some a → p a = false) : l.dropWhile p = l := by
  cases l with
  | nil => rfl
  | cons a l => exact List.dropWhile_cons_of_neg (by simp [h a rfl])

theorem head?_dropWhile_not (l : List α) (a : α) (h : (l.dropWhile p).head? = some a) : p a = false := by
  have hne : l.dropWhile p ≠ [] := by
    rintro h0
    rw [h0] at h
    cases h
  have hnot := List.head_dropWhile_not p hne
  rw [List.head?_eq_some_head hne, Option.some.injEq] at h
  rwa [h] at hnot

/-- The parts of a list with respect to `trim`. -/
theorem exists_split (p : α → Bool) (l : List α) : ∃ pre post, Split p l pre (trim p l) post := by
  have hfront := List.takeWhile_append_dropWhile (p := p) (l := l)
  have hback := List.takeWhile_append_dropWhile (p := p) (l := (l.dropWhile p).reverse)
  have hrest : l.dropWhile p = trim p l ++ ((l.dropWhile p).reverse.takeWhile p).reverse := by
    have h := congrArg List.reverse hback
    rw [List.reverse_append, List.reverse_reverse] at h
    exact h.symm
  refine ⟨l.takeWhile p, ((l.dropWhile p).reverse.takeWhile p).reverse, ?_, fun a ha => ?_, fun a ha => ?_,
    fun a ha => ?_, fun a ha => ?_⟩
  · rw [← hrest, hfront]
  · exact List.mem_takeWhile_imp ha
  · exact List.mem_takeWhile_imp (List.mem_reverse.mp ha)
  · -- the first element left is the first behind the prefix
    refine head?_dropWhile_not l a ?_
    rw [hrest, List.head?_append, ha]
    rfl
  · refine head?_dropWhile_not (l.dropWhile p).reverse a ?_
    rwa [trim, List.getLast?_reverse] at ha

theorem Split.trim_eq (h : Split p l pre body post) : trim p l = body := by
  have hfront : l.dropWhile p = (body ++ post).dropWhile p := by
    rw [h.eq, List.dropWhile_append_of_pos h.pre]
  by_cases hb : body = []
  · have hall : post.dropWhile p = [] := List.dropWhile_eq_nil_iff.mpr h.post
    rw [trim, hfront, hb, List.nil_append, hall]
    rfl
  · have hhead : ∀ a, (body ++ post).head? = some a → p a = false := fun a ha => by
      rw [List.head?_append_of_ne_nil _ hb] at ha
      exact h.head a ha
    have hlast : ∀ a, body.reverse.head? = some a → p a = false := fun a ha => by
      rw [List.head?_reverse] at ha
      exact h.last a ha
    rw [trim, hfront, dropWhile_of_head hhead, List.reverse_append,
      List.dropWhile_append_of_pos (fun a ha => h.post a (List.mem_reverse.mp ha)), dropWhile_of_head hlast,
      List.reverse_reverse]

theorem trim_eq_nil_iff : trim p l = [] ↔ ∀ a ∈ l, p a = true := by
  obtain ⟨pre, post, h⟩ := exists_split p l
  constructor
  · intro hnil a ha
    rw [h.eq, hnil, List.nil_append] at ha
    exact (List.mem_append.mp ha).elim (h.pre a) (h.post a)
  · intro hall
    have hs : Split p l l [] [] := by constructor <;> simp_all
    exact hs.trim_eq

/-- What is left has nothing to take off. -/
theorem trim_trim (p : α → Bool) (l : List α) : trim p (trim p l) = trim p l := by
  obtain ⟨pre, post, h⟩ := exists_split p l
  have hs : Split p (trim p l) [] (trim p l) [] := ⟨by simp, by simp, by simp, h.head, h.last⟩
  exact hs.trim_eq

/-- More elements with `p` in front change nothing. -/
theorem trim_cons {a : α} (ha : p a = true) (l : List α) : trim p (a :: l) = trim p l := by
  rw [trim, List.dropWhile_cons_of_pos ha]
  rfl

theorem trim_append_front (hpre : ∀ a ∈ pre, p a = true) (l : List α) : trim p (pre ++ l) = trim p l := by
  rw [trim, List.dropWhile_append_of_pos hpre]
  rfl

/-- Nor does one behind. -/
theorem trim_dropLast {a : α} (hlast : l.getLast? = some a) (ha : p a = true) : trim p l.dropLast = trim p l := by
  obtain ⟨pre, post, h⟩ := exists_split p l.dropLast
  have hl : l = l.dropLast ++ [a] := (List.dropLast_append_getLast? a hlast).symm
  have hs : Split p l pre (trim p l.dropLast) (post ++ [a]) := by
    refine ⟨?_, h.pre, fun b hb => ?_, h.head, h.last⟩
    · rw [hl]
      nth_rewrite 1 [h.eq]
      simp
    · rcases List.mem_append.mp hb with hb | hb
      · exact h.post b hb
      · rw [List.mem_singleton.mp hb, ha]
  exact hs.trim_eq.symm

theorem length_trim_le (p : α → Bool) (l : List α) : (trim p l).length ≤ l.length := by
  obtain ⟨pre, post, h⟩ := exists_split p l
  have hlen := congrArg List.length h.eq
  rw [List.length_append, List.length_append] at hlen
  omega

/-- Without an element at its end that stays, less is left of a list. -/
theorem length_trim_dropLast_lt {a : α} (hlast : l.getLast? = some a) (ha : p a = false) :
    (trim p l.dropLast).length < (trim p l).length := by
  obtain ⟨pre, post, h⟩ := exists_split p l
  obtain rfl : post = [] := by
    rcases List.eq_nil_or_concat' post with h0 | ⟨post, b, rfl⟩
    · exact h0
    · rw [h.eq, List.getLast?_append, List.getLast?_append, List.getLast?_concat] at hlast
      obtain rfl : b = a := Option.some.inj hlast
      rw [h.post b (by simp)] at ha
      cases ha
  have hne : trim p l ≠ [] := fun hnil => by
    rw [trim_eq_nil_iff.mp hnil a (List.mem_of_getLast? hlast)] at ha
    cases ha
  have hdrop : l.dropLast = pre ++ (trim p l).dropLast := by
    nth_rewrite 1 [h.eq]
    rw [List.append_nil, List.dropLast_append_of_ne_nil hne]
  have hpos := List.length_pos_iff.mpr hne
  calc (trim p l.dropLast).length = (trim p (trim p l).dropLast).length := by
        rw [hdrop, trim_append_front h.pre]
    _ ≤ (trim p l).dropLast.length := length_trim_le p _
    _ < (trim p l).length := by
        rw [List.length_dropLast]
        omega

theorem mem_of_mem_trim {a : α} (h : a ∈ trim p l) : a ∈ l := by
  obtain ⟨pre, post, hs⟩ := exists_split p l
  rw [hs.eq]
  exact List.mem_append_right _ (List.mem_append_left _ h)

end

/-! ### Two pointers -/

/-- What a pointer to the index `i` reads in an array with the terminator `nul`. -/
def deref (l : List α) (nul : α) (i : Int) : Option α := if i < 0 then none else (l ++ [nul])[i.toNat]?

theorem deref_natCast (l : List α) (nul : α) (i : Nat) : deref l nul i = (l ++ [nul])[i]? := by
  rw [deref, if_neg (by omega), Int.toNat_natCast]

variable [DecidableEq α]

/-- `while (*b == d && b <= e) b++`. -/
def skipFront (l : List α) (nul d : α) (e : Int) : Nat → Int → Option Int
  | 0, _ => none
  | fuel + 1, b =>
    match deref l nul b with
    | none => none
    | some c => if c = d ∧ b ≤ e then skipFront l nul d e fuel (b + 1) else some b

/-- `while (*e == d && b <= e) e--`. -/
def skipBack (l : List α) (nul d : α) (b : Int) : Nat → Int → Option Int
  | 0, _ => none
  | fuel + 1, e =>
    match deref l nul e with
    | none => none
    | some c => if c = d ∧ b ≤ e then skipBack l nul d b fuel (e - 1) else some e

/-- The two loops, from the ends of the array. -/
def pointers (l : List α) (nul d : α) : Option (Int × Int) :=
  match skipFront l nul d (l.length - 1) (l.length + 1) 0 with
  | none => none
  | some b => (skipBack l nul d b (l.length + 1) (l.length - 1)).map (fun e => (b, e))

section

variable {l : List α} {nul d : α}

/-- The front loop goes over a run of `d` and stops behind it. -/
theorem skipFront_eq {e : Int} {c : α} (m : Nat) : ∀ (fuel k : Nat), m < fuel →
    (∀ j < m, (l ++ [nul])[k + j]? = some d ∧ ((k + j : Nat) : Int) ≤ e) →
    (l ++ [nul])[k + m]? = some c → (c = d → e < ((k + m : Nat) : Int)) →
    skipFront l nul d e fuel k = some ((k + m : Nat) : Int) := by
  induction m with
  | zero =>
    intro fuel k hfuel _ hc hstop
    obtain ⟨fuel, rfl⟩ : ∃ f, fuel = f + 1 := ⟨fuel - 1, by omega⟩
    rw [Nat.add_zero] at hc hstop ⊢
    rw [skipFront, deref_natCast, hc]
    exact if_neg (fun h => absurd h.2 (Int.not_le.mpr (hstop h.1)))
  | succ m ih =>
    intro fuel k hfuel hrun hc hstop
    obtain ⟨fuel, rfl⟩ : ∃ f, fuel = f + 1 := ⟨fuel - 1, by omega⟩
    obtain ⟨hd, hle⟩ := hrun 0 (Nat.succ_pos m)
    have hshift : ∀ j, k + 1 + j = k + (j + 1) := fun j => by omega
    have hrec := ih fuel (k + 1) (by omega) (fun j hj => by rw [hshift]; exact hrun (j + 1) (by omega))
      (by rw [hshift]; exact hc) (by rw [hshift]; exact hstop)
    rw [skipFront, deref_natCast, show (l ++ [nul])[k]? = some d from hd]
    refine (if_pos ⟨rfl, hle⟩).trans ?_
    rw [hshift] at hrec
    exact hrec

/-- The back loop goes over a run of `d` and stops before it. -/
theorem skipBack_eq {b : Int} {c : α} (m : Nat) : ∀ (fuel k : Nat), m < fuel →
    (∀ j < m, (l ++ [nul])[k + 1 + j]? = some d ∧ b ≤ ((k + 1 + j : Nat) : Int)) →
    (l ++ [nul])[k]? = some c → (c = d → ((k : Nat) : Int) < b) →
    skipBack l nul d b fuel ((k + m : Nat) : Int) = some (k : Int) := by
  induction m with
  | zero =>
    intro fuel k hfuel _ hc hstop
    obtain ⟨fuel, rfl⟩ : ∃ f, fuel = f + 1 := ⟨fuel - 1, by omega⟩
    change skipBack l nul d b (fuel + 1) (k : Int) = some (k : Int)
    rw [skipBack, deref_natCast, hc]
    exact if_neg (fun h => absurd h.2 (Int.not_le.mpr (hstop h.1)))
  | succ m ih =>
    intro fuel k hfuel hrun hc hstop
    obtain ⟨fuel, rfl⟩ : ∃ f, fuel = f + 1 := ⟨fuel - 1, by omega⟩
    obtain ⟨hd, hle⟩ := hrun m (Nat.lt_succ_self m)
    have hrec := ih fuel k (by omega) (fun j hj => hrun j (by omega)) hc hstop
    have hidx : k + 1 + m = k + (m + 1) := by omega
    rw [hidx] at hd hle
    have hdown : (((k + (m + 1) : Nat) : Int) - 1) = ((k + m : Nat) : Int) := by omega
    rw [skipBack, deref_natCast, hd]
    refine (if_pos ⟨rfl, hle⟩).trans ?_
    rw [hdown]
    exact hrec

/-- In an array of nothing but `d` the first pointer runs to the terminator. -/
theorem pointers_of_all (hne : l ≠ []) (hd : nul ≠ d) (hall : ∀ a ∈ l, a = d) :
    pointers l nul d = some ((l.length : Int), (l.length : Int) - 1) := by
  have hpos := List.length_pos_iff.mpr hne
  have hget : ∀ j < l.length, (l ++ [nul])[j]? = some d := fun j hj => by
    rw [List.getElem?_append_left hj, List.getElem?_eq_getElem hj, hall _ (List.getElem_mem hj)]
  have hfront : skipFront l nul d ((l.length : Int) - 1) (l.length + 1) ((0 : Nat) : Int) =
      some ((0 + l.length : Nat) : Int) :=
    skipFront_eq l.length (l.length + 1) 0 (Nat.lt_succ_self _)
      (fun j hj => ⟨by rw [Nat.zero_add]; exact hget j hj, by omega⟩)
      (by rw [Nat.zero_add, List.getElem?_append_right (Nat.le_refl _), Nat.sub_self]; rfl) (fun h => absurd h hd)
  have hback : skipBack l nul d (l.length : Int) (l.length + 1) ((l.length - 1 + 0 : Nat) : Int) =
      some ((l.length - 1 : Nat) : Int) :=
    skipBack_eq 0 (l.length + 1) (l.length - 1) (Nat.succ_pos _) (fun j hj => absurd hj (Nat.not_lt_zero j))
      (hget _ (by omega)) (fun _ => by omega)
  have hstart : ((l.length - 1 + 0 : Nat) : Int) = (l.length : Int) - 1 := by omega
  have hstop : ((l.length - 1 : Nat) : Int) = (l.length : Int) - 1 := by omega
  rw [hstart, hstop] at hback
  rw [Nat.zero_add] at hfront
  rw [pointers, show skipFront l nul d (l.length - 1) (l.length + 1) 0 = some (l.length : Int) from hfront]
  dsimp only
  rw [hback]
  rfl

/-- Otherwise the pointers stop at the ends of what is left. -/
theorem pointers_of_split {pre body post : List α} (hs : Split (· == d) l pre body post) (hb : body ≠ []) :
    pointers l nul d = some ((pre.length : Int), (pre.length : Int) + body.length - 1) := by
  have hbpos := List.length_pos_iff.mpr hb
  have hlen : l.length = pre.length + (body.length + post.length) := by
    rw [hs.eq, List.length_append, List.length_append]
  have hpre : ∀ j < pre.length, (l ++ [nul])[0 + j]? = some d := fun j hj => by
    rw [Nat.zero_add, hs.eq, List.append_assoc, List.getElem?_append_left hj, List.getElem?_eq_getElem hj,
      eq_of_beq (hs.pre _ (List.getElem_mem hj))]
  have hpost : ∀ j < post.length, (l ++ [nul])[pre.length + (body.length + j)]? = some d := fun j hj => by
    rw [List.getElem?_append_left (by omega), hs.eq, List.getElem?_append_right (by omega),
      Nat.add_sub_cancel_left, List.getElem?_append_right (by omega), Nat.add_sub_cancel_left,
      List.getElem?_eq_getElem hj, eq_of_beq (hs.post _ (List.getElem_mem hj))]
  obtain ⟨x, hx⟩ : ∃ x, body.head? = some x := Option.isSome_iff_exists.mp (by simpa using hb)
  obtain ⟨y, hy⟩ : ∃ y, body.getLast? = some y := Option.isSome_iff_exists.mp (by simpa using hb)
  have hfirst : (l ++ [nul])[0 + pre.length]? = some x := by
    rw [Nat.zero_add, hs.eq, List.append_assoc, List.getElem?_append_right (Nat.le_refl _), Nat.sub_self,
      ← List.head?_eq_getElem?, List.append_assoc, List.head?_append_of_ne_nil _ hb, hx]
  have hlast : (l ++ [nul])[pre.length + (body.length - 1)]? = some y := by
    rw [List.getElem?_append_left (by omega), hs.eq, List.getElem?_append_right (by omega),
      Nat.add_sub_cancel_left, List.getElem?_append_left (by omega), ← List.getLast?_eq_getElem?, hy]
  have hfront := skipFront_eq (e := (l.length : Int) - 1) pre.length (l.length + 1) 0 (by omega)
    (fun j hj => ⟨hpre j hj, by omega⟩) hfirst (fun h => absurd (hs.head x hx) (by simp [h]))
  have hback := skipBack_eq (b := (pre.length : Int)) post.length (l.length + 1)
    (pre.length + (body.length - 1)) (by omega)
    (fun j hj => by
      rw [show pre.length + (body.length - 1) + 1 + j = pre.length + (body.length + j) by omega]
      exact ⟨hpost j hj, by omega⟩)
    hlast (fun h => absurd (hs.last y hy) (by simp [h]))
  have hend : ((pre.length + (body.length - 1) + post.length : Nat) : Int) = (l.length : Int) - 1 := by omega
  have hstop : ((pre.length + (body.length - 1) : Nat) : Int) = (pre.length : Int) + body.length - 1 := by omega
  rw [hend, hstop] at hback
  rw [Nat.zero_add] at hfront
  rw [pointers, show skipFront l nul d (l.length - 1) (l.length + 1) 0 = some (pre.length : Int) from hfront]
  dsimp only
  rw [hback]
  rfl

/-- **The two loops stay inside the array**, and what lies between the pointers is the
trimmed string; the pointers cross where nothing is left. -/
theorem pointers_spec (hne : l ≠ []) (hd : nul ≠ d) : ∃ b e, pointers l nul d = some (b, e) ∧
    (e < b ↔ trim (· == d) l = []) ∧
    (b ≤ e → (l.drop b.toNat).take (e + 1 - b).toNat = trim (· == d) l) := by
  by_cases hb : trim (· == d) l = []
  · have hall : ∀ a ∈ l, a = d := fun a ha => eq_of_beq (trim_eq_nil_iff.mp hb a ha)
    exact ⟨_, _, pointers_of_all hne hd hall, iff_of_true (by omega) hb, fun h => absurd h (by omega)⟩
  · obtain ⟨pre, post, hs⟩ := exists_split (· == d) l
    have hbpos := List.length_pos_iff.mpr hb
    refine ⟨_, _, pointers_of_split hs hb, iff_of_false (by omega) hb, fun _ => ?_⟩
    generalize trim (· == d) l = body at hs hbpos ⊢
    rw [show ((pre.length : Int) + body.length - 1 + 1 - pre.length).toNat = body.length by omega,
      Int.toNat_natCast, hs.eq, List.drop_left, List.take_left]

end

end Trim
