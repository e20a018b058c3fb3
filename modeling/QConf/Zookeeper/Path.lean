import QConf.Base.Common

/-!
# Paths of ZooKeeper

`isValidPath` is the check that the C client makes before it sends a request;
a path it rejects gives `ZBADARGUMENTS` and never reaches the server.  A path is
cut at its last slash by `rfind('/')` in the agent and the manager and by
`lastIndexOf` in the server (`splitLast`), and the node above `/a` is the root.
-/

namespace QConf

/-- The character `.`. -/
def dot : UInt8 := 46

/-- The path of the root. -/
def rootPath : Bytes := [slash]

/-- The body of the loop of `isValidPath` for the index `i`: whether the path is
rejected there.  `lastc` is the character before. -/
def badAt (path : Bytes) (i : Nat) : Bool :=
  let c := path.getD i 0
  let lastc := path.getD (i - 1) 0
  let atEnd := i + 1 == path.length || path.getD (i + 1) 0 == slash
  if c == 0 then true
  else if c == slash && lastc == slash then true
  else if c == dot && lastc == dot then path.getD (i - 2) 0 == slash && atEnd
  else if c == dot then lastc == slash && atEnd
  -- the comparison is on a signed `char`, so bytes from 128 on pass
  else decide (0 < c) && decide (c < 0x1f)

/-- `isValidPath`, for a request without `ZOO_SEQUENCE`. -/
def isValidPath (path : Bytes) : Bool :=
  match path with
  | [] => false
  | c :: rest =>
    c == slash && (rest.isEmpty ||
      (path.getLast? != some slash && (List.range' 1 rest.length).all (fun i => !badAt path i)))

/-! ### Cutting at the last slash -/

/-- The part before the last slash and the part behind it. -/
def splitLast (path : Bytes) : Option (Bytes × Bytes) :=
  match path.reverse.dropWhile (· != slash) with
  | [] => none
  | _ :: pre => some (pre.reverse, (path.reverse.takeWhile (· != slash)).reverse)

theorem splitLast_append {p c : Bytes} (hc : slash ∉ c) : splitLast (p ++ slash :: c) = some (p, c) := by
  have hrev : (p ++ slash :: c).reverse = c.reverse ++ slash :: p.reverse := by simp
  have hall : ∀ b ∈ c.reverse, (b != slash) = true := by
    intro b hb
    rw [bne_iff_ne]
    exact fun h => hc (by rw [← h]; simpa using hb)
  unfold splitLast
  rw [hrev, List.dropWhile_append_of_pos hall, List.takeWhile_append_of_pos hall]
  simp

theorem splitLast_some {q p c : Bytes} (h : splitLast q = some (p, c)) :
    q = p ++ slash :: c ∧ slash ∉ c := by
  unfold splitLast at h
  split at h
  · exact absurd h (by simp)
  · next b pre hd =>
    simp only [Option.some.injEq, Prod.mk.injEq] at h
    obtain ⟨rfl, rfl⟩ := h
    have hb : b = slash := by
      have := List.head_dropWhile_not (· != slash) (l := q.reverse) (by rw [hd]; simp)
      simpa [hd] using this
    have hq := List.takeWhile_append_dropWhile (p := (· != slash)) (l := q.reverse)
    rw [hd, hb] at hq
    refine ⟨?_, ?_⟩
    · have := congrArg List.reverse hq
      rw [List.reverse_reverse, List.reverse_append, List.reverse_cons, List.append_assoc] at this
      exact this.symm
    · intro hm
      have := List.mem_takeWhile_imp (List.mem_reverse.mp hm)
      simp at this

theorem splitLast_none {q : Bytes} : splitLast q = none ↔ slash ∉ q := by
  unfold splitLast
  constructor
  · intro h
    split at h
    · next hd =>
      rw [List.dropWhile_eq_nil_iff] at hd
      intro hm
      simpa using hd slash (List.mem_reverse.mpr hm)
    · exact absurd h (by simp)
  · intro h
    have hd : q.reverse.dropWhile (· != slash) = [] := by
      rw [List.dropWhile_eq_nil_iff]
      intro b hb
      rw [bne_iff_ne]
      exact fun hbs => h (by rw [← hbs]; simpa using hb)
    rw [hd]

/-! ### The tree order -/

/-- The node above a path; the node above `/a` is the root. -/
def zkParent (path : Bytes) : Bytes :=
  match splitLast path with
  | none => []
  | some (p, _) => if p = [] then rootPath else p

/-- The last component of a path. -/
def zkName (path : Bytes) : Bytes :=
  match splitLast path with
  | none => []
  | some (_, c) => c

/-- The path of the child `c` of `p`. -/
def childPath (p c : Bytes) : Bytes := if p = rootPath then slash :: c else p ++ slash :: c

theorem zkParent_append {p c : Bytes} (hp : p ≠ []) (hc : slash ∉ c) :
    zkParent (p ++ slash :: c) = p := by
  simp only [zkParent, splitLast_append hc, if_neg hp]

theorem zkName_append {p c : Bytes} (hc : slash ∉ c) : zkName (p ++ slash :: c) = c := by
  simp only [zkName, splitLast_append hc]

/-! ### Valid paths -/

theorem isValidPath_iff {q : Bytes} : isValidPath q = true ↔ q = rootPath ∨
    (2 ≤ q.length ∧ q.head? = some slash ∧ q.getLast? ≠ some slash ∧
      ∀ i, 1 ≤ i → i < q.length → badAt q i = false) := by
  cases q with
  | nil => simp [isValidPath, rootPath]
  | cons c rest =>
    cases rest with
    | nil => simp [isValidPath, rootPath]
    | cons d rest =>
      simp only [isValidPath, rootPath, Bool.and_eq_true, beq_iff_eq, List.isEmpty_cons, Bool.false_or,
        bne_iff_ne, List.all_eq_true, List.mem_range'_1, Bool.not_eq_true', List.length_cons,
        List.head?_cons, Option.some.injEq, List.cons.injEq, reduceCtorEq, and_false, false_or]
      constructor
      · rintro ⟨h1, h2, h3⟩
        exact ⟨by omega, h1, h2, fun i hi hl => h3 i ⟨hi, by omega⟩⟩
      · rintro ⟨_, h1, h2, h3⟩
        exact ⟨h1, h2, fun i hi => h3 i hi.1 (by omega)⟩

/-- Below the last slash of `p ++ slash :: c` the check sees what it sees in `p`. -/
theorem badAt_append {p c : Bytes} {i : Nat} (hi : i < p.length) :
    badAt (p ++ slash :: c) i = badAt p i := by
  have hget : ∀ j, j < p.length → (p ++ slash :: c).getD j 0 = p.getD j 0 := by
    intro j hj
    rw [List.getD_append _ _ _ _ hj]
  have hend : (i + 1 == (p ++ slash :: c).length || (p ++ slash :: c).getD (i + 1) 0 == slash) =
      (i + 1 == p.length || p.getD (i + 1) 0 == slash) := by
    by_cases he : i + 1 = p.length
    · simp [he]
    · have hne : ¬ i + 1 = (p ++ slash :: c).length := by
        rw [List.length_append, List.length_cons]
        omega
      rw [hget (i + 1) (by omega), beq_eq_false_iff_ne.mpr hne, beq_eq_false_iff_ne.mpr he]
  unfold badAt
  simp only [hget i hi, hget (i - 1) (by omega), hget (i - 2) (by omega), hend]

/-- A part of a valid path before a slash is valid. -/
theorem isValidPath_of_append {p c : Bytes} (hp : p ≠ [])
    (h : isValidPath (p ++ slash :: c) = true) : isValidPath p = true := by
  have hpos : 0 < p.length := List.length_pos_iff.mpr hp
  rcases isValidPath_iff.mp h with hroot | ⟨hlen, hhead, -, hbad⟩
  · have := congrArg List.length hroot
    simp [rootPath] at this
    omega
  have hhead' : p.head? = some slash := by rwa [List.head?_append_of_ne_nil _ hp] at hhead
  -- the last character of `p` is not a slash, or there would be two in a row
  have hlast : p.getLast? ≠ some slash := by
    intro hl
    have hb := hbad p.length (by omega) (by simp)
    have hc : (p ++ slash :: c).getD p.length 0 = slash := by
      rw [List.getD_append_right _ _ _ _ (Nat.le_refl _), Nat.sub_self]
      rfl
    have hd : (p ++ slash :: c).getD (p.length - 1) 0 = slash := by
      rw [List.getD_append _ _ _ _ (by omega), List.getD_eq_getElem?_getD,
        ← List.getLast?_eq_getElem?, hl]
      rfl
    have h0 : (slash == 0) = false := by decide
    simp only [badAt, hc, hd, h0] at hb
    simp at hb
  refine isValidPath_iff.mpr (Or.inr ⟨?_, hhead', hlast, fun i hi hl => ?_⟩)
  · by_contra hlt
    obtain ⟨b, rfl⟩ := List.length_eq_one_iff.mp (show p.length = 1 by omega)
    exact hlast (by simpa using hhead')
  · rw [← badAt_append hl]
    exact hbad i hi (by rw [List.length_append]; omega)

/-- A path component of ordinary characters: no slash, no dot and no control
character. -/
def Plain (c : Bytes) : Prop := c ≠ [] ∧ ∀ b ∈ c, b ≠ slash ∧ b ≠ dot ∧ 0x1f ≤ b

instance (c : Bytes) : Decidable (Plain c) := inferInstanceAs (Decidable (_ ∧ _))

theorem Plain.not_mem_slash {c : Bytes} (h : Plain c) : slash ∉ c := fun hm => (h.2 slash hm).1 rfl

/-- A plain component extends a valid path other than the root. -/
theorem isValidPath_append {p c : Bytes} (hp : isValidPath p = true) (hroot : p ≠ rootPath)
    (hc : Plain c) : isValidPath (p ++ slash :: c) = true := by
  rcases isValidPath_iff.mp hp with h | ⟨hlen, hhead, hlast, hbad⟩
  · exact absurd h hroot
  have hne : p ≠ [] := by rintro rfl; simp at hlen
  refine isValidPath_iff.mpr (Or.inr ⟨by simp; omega, ?_, ?_, ?_⟩)
  · rwa [List.head?_append_of_ne_nil _ hne]
  · rw [List.getLast?_append_of_ne_nil _ (by simp), List.getLast?_cons_of_ne_nil hc.1]
    intro hl
    exact (hc.2 _ (List.mem_of_getLast? hl)).1 rfl
  · intro i hi hl
    by_cases hip : i < p.length
    · rw [badAt_append hip]
      exact hbad i hi hip
    · obtain ⟨k, rfl⟩ : ∃ k, i = p.length + k := ⟨i - p.length, by omega⟩
      have hget : (p ++ slash :: c).getD (p.length + k) 0 = (slash :: c).getD k 0 := by
        rw [List.getD_append_right _ _ _ _ (by omega), Nat.add_sub_cancel_left]
      cases k with
      | zero =>
        -- the new slash does not follow another one
        have hd : (p ++ slash :: c).getD (p.length - 1) 0 ≠ slash := by
          rw [List.getD_append _ _ _ _ (by omega), List.getD_eq_getElem?_getD,
            ← List.getLast?_eq_getElem?]
          intro h
          cases hl' : p.getLast? with
          | none => exact hne (List.getLast?_eq_none_iff.mp hl')
          | some b => rw [hl'] at h; exact hlast (hl'.trans (congrArg some h))
        have hs : (p ++ slash :: c).getD p.length 0 = slash := hget
        have h0 : (slash == (0 : UInt8)) = false := by decide
        have h1 : (slash == dot) = false := by decide
        simp only [badAt, Nat.add_zero, hs, beq_eq_false_iff_ne.mpr hd, h0, h1, Bool.and_false,
          Bool.false_and]
        rfl
      | succ k =>
        have hmem : (slash :: c).getD (k + 1) 0 ∈ c := by
          rw [List.getD_cons_succ, List.getD_eq_getElem _ _ (by simp at hl; omega)]
          exact List.getElem_mem _
        obtain ⟨h1, h2, h3⟩ := hc.2 _ hmem
        have h0 : (slash :: c).getD (k + 1) 0 ≠ 0 := fun h => by rw [h] at h3; exact absurd h3 (by decide)
        have hlt : ¬ (slash :: c).getD (k + 1) 0 < 0x1f := UInt8.not_lt.mpr h3
        simp only [badAt, hget, beq_eq_false_iff_ne.mpr h0, beq_eq_false_iff_ne.mpr h1,
          beq_eq_false_iff_ne.mpr h2, Bool.false_and, decide_eq_false hlt, Bool.and_false]
        rfl

/-- A path that is accepted has no NUL byte. -/
theorem isValidPath_nulFree {q : Bytes} (h : isValidPath q = true) : NulFree q := by
  rcases isValidPath_iff.mp h with rfl | ⟨-, hhead, -, hbad⟩
  · decide
  intro hm
  obtain ⟨i, hi, hget⟩ := List.getElem_of_mem hm
  by_cases h0 : i = 0
  · subst h0
    rw [List.head?_eq_getElem?, List.getElem?_eq_getElem hi, hget] at hhead
    exact absurd hhead (by decide)
  · have hb := hbad i (by omega) hi
    have hd : q.getD i 0 = 0 := by rw [List.getD_eq_getElem _ _ hi, hget]
    simp only [badAt, hd] at hb
    simp at hb

/-- Two slashes in front are rejected. -/
theorem rootPath_slash_not_valid (c : Bytes) : isValidPath (rootPath ++ slash :: c) = false := by
  cases h : isValidPath (rootPath ++ slash :: c) with
  | false => rfl
  | true =>
    rcases isValidPath_iff.mp h with h0 | ⟨-, -, -, hbad⟩
    · simp [rootPath] at h0
    · have := hbad 1 (by omega) (by simp [rootPath])
      simp [badAt, rootPath] at this

/-! ### Paths above a path -/

/-- `q` is `p` or on the way to it. -/
def Above (q p : Bytes) : Prop := q = p ∨ ∃ c, p = q ++ slash :: c

theorem above_iff_begins {q p : Bytes} : Above q p ↔ q = p ∨ q ++ [slash] <+: p := by
  refine or_congr_right ⟨fun ⟨c, hc⟩ => ⟨c, by simp [hc]⟩, fun ⟨c, hc⟩ => ⟨c, by simp [← hc]⟩⟩

instance (q p : Bytes) : Decidable (Above q p) := decidable_of_iff _ above_iff_begins.symm

theorem Above.refl (p : Bytes) : Above p p := Or.inl rfl

theorem Above.trans {q p r : Bytes} (h : Above q p) (h' : Above p r) : Above q r := by
  rcases h with rfl | ⟨c, rfl⟩
  · exact h'
  rcases h' with rfl | ⟨d, rfl⟩
  · exact Or.inr ⟨c, rfl⟩
  · exact Or.inr ⟨c ++ slash :: d, by simp⟩

theorem Above.length_le {q p : Bytes} (h : Above q p) : q.length ≤ p.length := by
  rcases h with rfl | ⟨c, rfl⟩
  · exact Nat.le_refl _
  · simp

theorem Above.antisymm {q p : Bytes} (h : Above q p) (h' : Above p q) : q = p := by
  rcases h with h | ⟨c, hc⟩
  · exact h
  · have h1 := h'.length_le
    rw [hc, List.length_append, List.length_cons] at h1
    omega

/-- The node above a node is above every node on the way to it. -/
theorem above_of_append {q c p n : Bytes} (h : q ++ slash :: c = p ++ slash :: n) (hn : slash ∉ n) :
    Above q p := by
  rcases List.append_eq_append_iff.mp h with ⟨a, hp, ha⟩ | ⟨a, hq, ha⟩
  · cases a with
    | nil => exact Or.inl (by simpa using hp.symm)
    | cons b a =>
      rw [List.cons_append, List.cons.injEq] at ha
      exact Or.inr ⟨a, by rw [hp, ha.1]⟩
  · cases a with
    | nil => exact Or.inl (by simpa using hq)
    | cons b a =>
      rw [List.cons_append, List.cons.injEq] at ha
      exact absurd (by rw [ha.2]; simp) hn

/-- Of two paths above a third one is above the other. -/
theorem Above.total {a b c : Bytes} (ha : Above a c) (hb : Above b c) : Above a b ∨ Above b a := by
  rcases ha with rfl | ⟨x, hx⟩
  · exact Or.inr hb
  rcases hb with rfl | ⟨y, hy⟩
  · exact Or.inl (Or.inr ⟨x, hx⟩)
  rcases List.append_eq_append_iff.mp (hx.symm.trans hy) with ⟨d, hd, he⟩ | ⟨d, hd, he⟩
  · cases d with
    | nil => exact Or.inl (Or.inl (by simpa using hd.symm))
    | cons z d =>
      rw [List.cons_append, List.cons.injEq] at he
      exact Or.inl (Or.inr ⟨d, by rw [hd, he.1]⟩)
  · cases d with
    | nil => exact Or.inl (Or.inl (by simpa using hd))
    | cons z d =>
      rw [List.cons_append, List.cons.injEq] at he
      exact Or.inr (Or.inr ⟨d, by rw [hd, he.1]⟩)

/-- A path of one more plain component has only itself and what is above the rest
above it. -/
theorem Above.eq_or_above {q p n : Bytes} (h : Above q (p ++ slash :: n)) (hn : slash ∉ n) :
    q = p ++ slash :: n ∨ Above q p := by
  rcases h with h | ⟨c, hc⟩
  · exact Or.inl h
  · exact Or.inr (above_of_append hc.symm hn)

/-- A path goes on as the paths above it begin. -/
theorem Above.getElem? {q p : Bytes} (h : Above q p) {i : Nat} (hi : i < q.length) : p[i]? = q[i]? := by
  rcases h with rfl | ⟨c, rfl⟩
  · rfl
  · exact List.getElem?_append_left hi

theorem above_append_iff (p q c : Bytes) : Above (p ++ q) (p ++ c) ↔ Above q c := by
  simp [Above]

end QConf
