import QConf.Manager.Path

/-!
# The path of a request

The driver and the manager both put one slash in front of a path and take the others off its
ends, each in its own way: `get_node_path` moves two pointers towards each other,
`path_normalize` asks for the positions of the first and the last byte that is no slash.  Both
are `trim` (`getNodePath_eq`, `pathNormalizeAt_eq`), so a client finds under a path what the
manager stored under it.
-/

namespace QConf.Driver

open Trim Manager

/-! ### `get_node_path` -/

/-- `get_node_path`, built without `QCONF_INTERNAL`.  `none` is a read outside the path. -/
def getNodePath (path : Bytes) : Option (Except Ret Bytes) :=
  if path.length = 0 then some (.error .errParam)
  else
    match pointers path 0 slash with
    | none => none
    | some (startPos, endPos) =>
      if startPos > endPos then some (.error .errParam)
      else some (.ok (slash :: (path.drop startPos.toNat).take (endPos + 1 - startPos).toNat))

theorem getNodePath_eq (path : Bytes) : getNodePath path =
    some (if trim (· == slash) path = [] then .error .errParam else .ok (slash :: trim (· == slash) path)) := by
  by_cases hne : path = []
  · rw [hne]
    rfl
  · obtain ⟨b, e, hpointers, hcross, hbetween⟩ :=
      pointers_spec (l := path) (d := slash) hne (show (0 : UInt8) ≠ slash by decide)
    rw [getNodePath, if_neg (fun h => hne (List.length_eq_zero_iff.mp h)), hpointers]
    dsimp only
    by_cases h : e < b
    · rw [if_pos h, if_pos (hcross.mp h)]
    · rw [if_neg h, if_neg (fun h0 => h (hcross.mpr h0)), hbetween (Int.not_lt.mp h)]

/-! ### `path_normalize` -/

/-- `find_first_not_of`. -/
def findFirstNotOf (s : Bytes) (d : UInt8) : Option Nat := s.findIdx? (· != d)

/-- `find_last_not_of`. -/
def findLastNotOf (s : Bytes) (d : UInt8) : Option Nat :=
  (s.reverse.findIdx? (· != d)).map (fun i => s.length - 1 - i)

/-- `substr`, which throws if it begins behind the end. -/
def substr (s : Bytes) (pos n : Nat) : Option Bytes :=
  if pos ≤ s.length then some ((s.drop pos).take n) else none

/-- `path_normalize`, with the positions it computes.  `none` is an exception of `substr`. -/
def pathNormalizeAt (path : Bytes) : Option (Except Ret Bytes) :=
  match findLastNotOf path slash with
  | none => some (.error .errOther)
  | some posEnd =>
    match findFirstNotOf path slash with
    | none => none
    | some posBegin =>
      (substr path posBegin (posEnd - posBegin + 1)).map (fun s => .ok (slash :: s))

/-- The first byte behind a run of `d`. -/
theorem findIdx?_append_of_run {d x : UInt8} {pre rest : Bytes} (hpre : ∀ a ∈ pre, (a == d) = true)
    (hx : rest.head? = some x) (hd : (x == d) = false) : (pre ++ rest).findIdx? (· != d) = some pre.length := by
  rw [List.findIdx?_append, List.findIdx?_eq_none_iff.mpr (fun a ha => by simp [bne, hpre a ha])]
  cases rest with
  | nil => cases hx
  | cons y rest =>
    rw [List.head?_cons, Option.some.injEq] at hx
    rw [List.findIdx?_cons, if_pos (by simp [bne, hx, hd])]
    simp

theorem findFirstNotOf_of_split {d : UInt8} {s pre body post : Bytes} (hs : Split (· == d) s pre body post)
    (hb : body ≠ []) : findFirstNotOf s d = some pre.length := by
  obtain ⟨x, hx⟩ : ∃ x, body.head? = some x := Option.isSome_iff_exists.mp (by simpa using hb)
  rw [findFirstNotOf, hs.eq]
  exact findIdx?_append_of_run hs.pre (by rw [List.head?_append_of_ne_nil _ hb, hx]) (hs.head x hx)

theorem findLastNotOf_of_split {d : UInt8} {s pre body post : Bytes} (hs : Split (· == d) s pre body post)
    (hb : body ≠ []) : findLastNotOf s d = some (pre.length + (body.length - 1)) := by
  have hpos := List.length_pos_iff.mpr hb
  obtain ⟨y, hy⟩ : ∃ y, body.getLast? = some y := Option.isSome_iff_exists.mp (by simpa using hb)
  have hrev : s.reverse = post.reverse ++ (body.reverse ++ pre.reverse) := by
    rw [hs.eq, List.reverse_append, List.reverse_append, List.append_assoc]
  have hlen : s.length = pre.length + (body.length + post.length) := by
    rw [hs.eq, List.length_append, List.length_append]
  have hidx : (post.reverse ++ (body.reverse ++ pre.reverse)).findIdx? (· != d) = some post.reverse.length :=
    findIdx?_append_of_run (fun a ha => hs.post a (List.mem_reverse.mp ha))
      (by rw [List.head?_append_of_ne_nil _ (by simpa using hb), List.head?_reverse, hy]) (hs.last y hy)
  rw [findLastNotOf, hrev, hidx, Option.map_some, List.length_reverse, Option.some.injEq]
  omega

theorem pathNormalizeAt_eq (path : Bytes) : pathNormalizeAt path =
    some (if trim (· == slash) path = [] then .error .errOther else .ok (slash :: trim (· == slash) path)) := by
  by_cases hb : trim (· == slash) path = []
  · have hlast : findLastNotOf path slash = none := by
      rw [findLastNotOf, List.findIdx?_eq_none_iff.mpr, Option.map_none]
      exact fun a ha => by simp [bne, trim_eq_nil_iff.mp hb a (List.mem_reverse.mp ha)]
    rw [pathNormalizeAt, hlast, if_pos hb]
  · obtain ⟨pre, post, hs⟩ := exists_split (· == slash) path
    have hpos := List.length_pos_iff.mpr hb
    rw [pathNormalizeAt, findLastNotOf_of_split hs hb, findFirstNotOf_of_split hs hb, if_neg hb]
    generalize trim (· == slash) path = body at hs hpos ⊢
    have hlen : path.length = pre.length + (body.length + post.length) := by
      rw [hs.eq, List.length_append, List.length_append]
    have hsub : substr path pre.length (pre.length + (body.length - 1) - pre.length + 1) = some body := by
      rw [substr, if_pos (by omega), Nat.add_sub_cancel_left, Nat.sub_add_cancel hpos, hs.eq, List.drop_left,
        List.take_left]
    dsimp only
    rw [hsub]
    rfl

/-- The positions of `path_normalize` give what the other modules take it for. -/
theorem pathNormalizeAt_eq_pathNormalize (path : Bytes) : pathNormalizeAt path =
    some (match pathNormalize path with
      | none => .error .errOther
      | some p => .ok p) := by
  rw [pathNormalizeAt_eq, pathNormalize_eq]
  by_cases hb : trim (· == slash) path = []
  · rw [if_pos hb, if_pos hb]
  · rw [if_neg hb, if_neg hb]

/-! ### One path for both -/

/-- What is normalised once is left as it is. -/
theorem trim_slash_cons (path : Bytes) : trim (· == slash) (slash :: trim (· == slash) path) = trim (· == slash) path := by
  rw [trim_cons rfl, trim_trim]

/-- **Driver and manager normalise paths identically.**  Both fail where the path has no other
byte than slashes; otherwise both give a slash and the path without the slashes at its ends, and
leave that as it is.  So what `zk_path` of the manager accepts is the path a client asks for. -/
theorem driver_and_manager_normalise_alike (p : Bytes) :
    ((∀ b ∈ p, b = slash) ∧ getNodePath p = some (.error .errParam) ∧
        pathNormalizeAt p = some (.error .errOther) ∨
      ∃ pre body post, p = pre ++ (body ++ post) ∧ (∀ b ∈ pre, b = slash) ∧ (∀ b ∈ post, b = slash) ∧
        body ≠ [] ∧ body.head? ≠ some slash ∧ body.getLast? ≠ some slash ∧
        getNodePath p = some (.ok (slash :: body)) ∧ pathNormalizeAt p = some (.ok (slash :: body)) ∧
        getNodePath (slash :: body) = some (.ok (slash :: body)) ∧
        pathNormalizeAt (slash :: body) = some (.ok (slash :: body))) ∧
    ∀ q, zkPath p = some q → getNodePath p = some (.ok q) := by
  refine ⟨?_, fun q hq => ?_⟩
  · by_cases hb : trim (· == slash) p = []
    · refine Or.inl ⟨fun b hbp => eq_of_beq (trim_eq_nil_iff.mp hb b hbp), ?_, ?_⟩
      · rw [getNodePath_eq, if_pos hb]
      · rw [pathNormalizeAt_eq, if_pos hb]
    · obtain ⟨pre, post, hs⟩ := exists_split (· == slash) p
      refine Or.inr ⟨pre, trim (· == slash) p, post, hs.eq, fun b h => eq_of_beq (hs.pre b h),
        fun b h => eq_of_beq (hs.post b h), hb, fun h => ?_, fun h => ?_, ?_, ?_, ?_, ?_⟩
      · exact absurd (hs.head slash h) (by decide)
      · exact absurd (hs.last slash h) (by decide)
      · rw [getNodePath_eq, if_neg hb]
      · rw [pathNormalizeAt_eq, if_neg hb]
      · rw [getNodePath_eq, trim_slash_cons, if_neg hb]
      · rw [pathNormalizeAt_eq, trim_slash_cons, if_neg hb]
  · obtain ⟨-, -, hnorm⟩ := zkPath_some hq
    obtain ⟨hb, rfl⟩ := pathNormalize_some hnorm
    rw [getNodePath_eq, if_neg hb]

end QConf.Driver
