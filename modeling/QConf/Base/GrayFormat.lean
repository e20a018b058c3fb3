import QConf.Base.Format

/-!
# The content of a gray release

A set of records is written as their number in two bytes and each record behind
its length in four.  The reader takes that many records from the front; it does
not look at what follows, but a string that was cut off somewhere is rejected.
-/

namespace QConf

open ByteCodec

/-- `graynodeval_to_tblval`. -/
def graynodevalToTblval (nodes : Finset Bytes) : Bytes :=
  leBytes vectorCountLen nodes.card ++ (sortBytes nodes).flatMap (field valueSizeLen)

/-- The loop of `tblval_to_graynodeval`. -/
def readRecords : Nat → Bytes → Nat → Finset Bytes → Option (Finset Bytes)
  | 0, _, _, nodes => some nodes
  | size + 1, tblval, pos, nodes =>
    match readField valueSizeLen tblval pos with
    | none => none
    | some (r, pos) => readRecords size tblval pos (insert r nodes)

/-- `tblval_to_graynodeval`; `none` is its `QCONF_ERR_OTHER`. -/
def tblvalToGraynodeval (tblval : Bytes) : Option (Finset Bytes) :=
  if tblval.length < vectorCountLen then none
  else readRecords (leNat (tblval.take vectorCountLen)) tblval vectorCountLen ∅

/-! ### The round trip -/

theorem readRecords_append : ∀ (rs : List Bytes) (pre suf : Bytes) (nodes : Finset Bytes),
    (∀ r ∈ rs, r.length < 256 ^ valueSizeLen) →
      readRecords rs.length (pre ++ rs.flatMap (field valueSizeLen) ++ suf) pre.length nodes
        = some (nodes ∪ rs.toFinset) := by
  intro rs
  induction rs with
  | nil => intro pre suf nodes _; simp [readRecords]
  | cons r rs ih =>
    intro pre suf nodes hlen
    have hread := readField_append (hlen r List.mem_cons_self) pre
      (rs.flatMap (field valueSizeLen) ++ suf)
    have hbuf : pre ++ (r :: rs).flatMap (field valueSizeLen) ++ suf
        = pre ++ field valueSizeLen r ++ (rs.flatMap (field valueSizeLen) ++ suf) := by
      simp [List.flatMap_cons]
    have hpos : (pre ++ field valueSizeLen r).length = pre.length + valueSizeLen + r.length := by
      rw [List.length_append, field_length, Nat.add_assoc]
    have hrest := ih (pre ++ field valueSizeLen r) suf (insert r nodes)
      (fun r' hr' => hlen r' (List.mem_cons_of_mem _ hr'))
    rw [hpos, List.append_assoc] at hrest
    rw [hbuf, List.length_cons, readRecords, hread]
    simp only
    rw [hrest, List.toFinset_cons, Finset.insert_union, Finset.union_insert]

/-- A string that is cut off inside the records is not read to the end. -/
theorem readRecords_take : ∀ (rs : List Bytes) (pre : Bytes) (n : Nat) (nodes nodes' : Finset Bytes),
    (∀ r ∈ rs, r.length < 256 ^ valueSizeLen) → pre.length ≤ n →
      readRecords rs.length ((pre ++ rs.flatMap (field valueSizeLen)).take n) pre.length nodes
        = some nodes' →
      (pre ++ rs.flatMap (field valueSizeLen)).length ≤ n := by
  intro rs
  induction rs with
  | nil => intro pre n nodes nodes' _ hpre _; simpa using hpre
  | cons r rs ih =>
    intro pre n nodes nodes' hlen _ h
    have hbuf : pre ++ (r :: rs).flatMap (field valueSizeLen)
        = pre ++ field valueSizeLen r ++ rs.flatMap (field valueSizeLen) := by
      simp [List.flatMap_cons]
    have hpos : (pre ++ field valueSizeLen r).length = pre.length + valueSizeLen + r.length := by
      rw [List.length_append, field_length, Nat.add_assoc]
    have hread := readField_append (hlen r List.mem_cons_self) pre (rs.flatMap (field valueSizeLen))
    rw [List.length_cons, readRecords, hbuf] at h
    split at h
    · exact absurd h (by simp)
    · next r' pos hr =>
      obtain ⟨hr, hle⟩ := readField_take hr
      rw [hread, Option.some.injEq, Prod.mk.injEq] at hr
      obtain ⟨rfl, rfl⟩ := hr
      rw [← hpos] at h hle
      rw [hbuf]
      exact ih _ n _ nodes' (fun r' hr' => hlen r' (List.mem_cons_of_mem _ hr')) hle h

section

variable {nodes : Finset Bytes}

/-- **The content round trip**, for at most 65535 records. -/
theorem tblvalToGraynodeval_graynodevalToTblval (hcard : nodes.card < 65536)
    (hlen : ∀ r ∈ nodes, r.length < 256 ^ valueSizeLen) (suf : Bytes) :
    tblvalToGraynodeval (graynodevalToTblval nodes ++ suf) = some nodes := by
  have hcount : leNat ((graynodevalToTblval nodes ++ suf).take vectorCountLen) = nodes.card := by
    rw [graynodevalToTblval, List.append_assoc, List.take_left' (leBytes_length _ _), leNat_leBytes]
    exact Nat.mod_eq_of_lt hcard
  have hbuf : ¬ (graynodevalToTblval nodes ++ suf).length < vectorCountLen := by
    simp [graynodevalToTblval]
  have hread := readRecords_append (sortBytes nodes) (leBytes vectorCountLen nodes.card) suf ∅
    (fun r hr => hlen r (mem_sortBytes.mp hr))
  rw [leBytes_length, sortBytes_length, sortBytes_toFinset, Finset.empty_union] at hread
  rw [tblvalToGraynodeval, if_neg hbuf, hcount]
  exact hread

/-- **A content that lost its tail is rejected.** -/
theorem tblvalToGraynodeval_take (hcard : nodes.card < 65536)
    (hlen : ∀ r ∈ nodes, r.length < 256 ^ valueSizeLen) {n : Nat}
    (hn : n < (graynodevalToTblval nodes).length) :
    tblvalToGraynodeval ((graynodevalToTblval nodes).take n) = none := by
  unfold tblvalToGraynodeval
  split
  · rfl
  next hlen2 =>
  rw [List.length_take, Nat.min_eq_left (Nat.le_of_lt hn), Nat.not_lt] at hlen2
  have hcount : leNat (((graynodevalToTblval nodes).take n).take vectorCountLen) = nodes.card := by
    rw [List.take_take, Nat.min_eq_left hlen2, graynodevalToTblval,
      List.take_left' (leBytes_length _ _), leNat_leBytes]
    exact Nat.mod_eq_of_lt hcard
  rw [hcount]
  cases hr : readRecords nodes.card ((graynodevalToTblval nodes).take n) vectorCountLen ∅ with
  | none => rfl
  | some nodes' =>
    have hle := readRecords_take (sortBytes nodes) (leBytes vectorCountLen nodes.card) n ∅ nodes'
      (fun r hr => hlen r (mem_sortBytes.mp hr)) (by rw [leBytes_length]; exact hlen2)
      (by rw [leBytes_length, sortBytes_length]; exact hr)
    exact absurd hle (Nat.not_le.mpr hn)

end

end QConf
