import QConf.Base.Shm.Lru

/-!
# What `qconf_verify` accepts

A frame is a length, a value, and the value again or its MD5.  `qconf_verify` accepts the
frames and nothing else, whatever follows them (`checksum_frame_sound_and_complete`).

The agent overwrites the slots of a value while clients read them without a lock, so a
client may see the first bytes of one frame and the rest of another.  For two values of
one length both have the same length in front.  Where the cut is inside the value,
the check belongs to the second one, and where it is behind the value, the value is the
first one: a third value never passes (`torn_read_is_one_of_two`).
-/

namespace QConf.Shm

open ByteCodec

section

variable {md5 : Bytes → Bytes} {s v : Bytes}

/-- A string that is too short for a length is rejected. -/
theorem qconfVerifyIn_short (beyond : Bytes) (h : s.length < valueSizeLen) :
    qconfVerifyIn md5 beyond s = (.errTblDataMess, s) := by
  unfold qconfVerifyIn
  dsimp only
  split
  · rw [if_pos (by omega)]
  · rw [if_pos (by omega)]

/-- What stands behind the string makes no difference. -/
theorem qconfVerifyIn_eq (beyond : Bytes) : qconfVerifyIn md5 beyond s = qconfVerify md5 s := by
  by_cases h : s.length < valueSizeLen
  · rw [qconfVerify, qconfVerifyIn_short beyond h, qconfVerifyIn_short [] h]
  · rw [qconfVerify, qconfVerifyIn, qconfVerifyIn, List.append_nil,
      List.take_append_of_le_length (Nat.not_lt.mp h)]

/-- The check of a value. -/
def checkOf (md5 : Bytes → Bytes) (v : Bytes) : Bytes := if v.length > needMd5Tbllen then md5 v else v

theorem frameValue_eq (hv : v.length < 2 ^ 32) :
    frameValue md5 v = leBytes valueSizeLen v.length ++ (v ++ checkOf md5 v) := by
  rw [frameValue, Nat.mod_eq_of_lt hv, List.take_length, List.append_assoc]
  rfl

/-- A string with a declared length that fits: the length, the value and the rest. -/
theorem split_frame {n : Nat} (hsize : leNat (s.take valueSizeLen) = n) (hlen : valueSizeLen + n ≤ s.length) :
    n < 2 ^ 32 ∧ ((s.drop valueSizeLen).take n).length = n ∧
      s = leBytes valueSizeLen n ++ ((s.drop valueSizeLen).take n ++ s.drop (valueSizeLen + n)) := by
  have htake : (s.take valueSizeLen).length = valueSizeLen := by
    rw [List.length_take]
    omega
  have hlt := leNat_lt (s.take valueSizeLen)
  have hhead := leBytes_leNat (s.take valueSizeLen)
  rw [htake, hsize] at hlt hhead
  refine ⟨hlt, by rw [List.length_take, List.length_drop]; omega, ?_⟩
  rw [hhead, ← List.drop_drop, List.take_append_drop, List.take_append_drop]

/-- **What is accepted is a frame**, followed by anything. -/
theorem frame_of_verify (h : qconfVerify md5 s = (.ok, v)) :
    v.length < 2 ^ 32 ∧ ∃ tail, s = frameValue md5 v ++ tail := by
  rw [qconfVerify, qconfVerifyIn, List.append_nil] at h
  generalize hsize : leNat (s.take valueSizeLen) = n at h
  split at h
  · next hbig =>
    split at h
    · exact absurd h (by simp)
    · next hlen =>
      split at h
      · next hcheck =>
        obtain ⟨hlt, hval, hsplit⟩ := split_frame hsize (by omega)
        obtain rfl := (Prod.mk.inj h).2
        refine ⟨by rw [hval]; exact hlt, (s.drop (valueSizeLen + n)).drop md5IntLen, ?_⟩
        rw [frameValue_eq (by rw [hval]; exact hlt), checkOf, hval, if_pos hbig, hcheck,
          List.append_assoc, List.append_assoc, List.take_append_drop]
        exact hsplit
      · exact absurd h (by simp)
  · next hsmall =>
    split at h
    · exact absurd h (by simp)
    · next hlen =>
      split at h
      · next hcheck =>
        obtain ⟨hlt, hval, hsplit⟩ := split_frame hsize (by omega)
        obtain rfl := (Prod.mk.inj h).2
        refine ⟨by rw [hval]; exact hlt, (s.drop (valueSizeLen + n)).drop n, ?_⟩
        rw [frameValue_eq (by rw [hval]; exact hlt), checkOf, hval, if_neg hsmall, List.append_assoc,
          List.append_assoc]
        nth_rewrite 2 [hcheck]
        rw [List.take_append_drop]
        exact hsplit
      · exact absurd h (by simp)

/-- `qconf_verify` has two answers. -/
theorem verify_cases (md5 : Bytes → Bytes) (s : Bytes) :
    (∃ v, qconfVerify md5 s = (.ok, v)) ∨ qconfVerify md5 s = (.errTblDataMess, s) := by
  unfold qconfVerify qconfVerifyIn
  dsimp only
  split
  · split
    · exact Or.inr rfl
    · split
      · exact Or.inl ⟨_, rfl⟩
      · exact Or.inr rfl
  · split
    · exact Or.inr rfl
    · split
      · exact Or.inl ⟨_, rfl⟩
      · exact Or.inr rfl

end

/-- **The frame is sound and complete.**  `qconf_verify` accepts a string with the value
`v` exactly where the string is the frame of `v` followed by anything, and in every other
case it answers `QCONF_ERR_TBL_DATA_MESS` and leaves the string as it is; what stands in memory
behind the string never matters. -/
theorem checksum_frame_sound_and_complete (md5 : Bytes → Bytes)
    (hmd5 : ∀ b, (md5 b).length = md5IntLen) (beyond s : Bytes) :
    (∀ v, qconfVerifyIn md5 beyond s = (.ok, v) ↔
      v.length < 2 ^ 32 ∧ ∃ tail, s = frameValue md5 v ++ tail) ∧
    ((¬ ∃ v, v.length < 2 ^ 32 ∧ ∃ tail, s = frameValue md5 v ++ tail) →
      qconfVerifyIn md5 beyond s = (.errTblDataMess, s)) := by
  rw [qconfVerifyIn_eq]
  constructor
  · intro v
    refine ⟨frame_of_verify, ?_⟩
    rintro ⟨hv, tail, rfl⟩
    exact verify_frameValue_append hmd5 hv tail
  · intro hno
    rcases verify_cases md5 s with ⟨v, hok⟩ | hbad
    · exact absurd ⟨v, frame_of_verify hok⟩ hno
    · exact hbad

/-- A checksum that adds the bytes up. -/
def sumCheck (b : Bytes) : Bytes := List.replicate md5IntLen b.sum

/-- The frame of twenty bytes is accepted with something behind it, and a part of a size is not a
frame. -/
theorem checksum_frame_of_sums :
    qconfVerifyIn sumCheck [1, 2] (frameValue sumCheck (List.replicate 20 7) ++ [9]) =
      (.ok, List.replicate 20 7) ∧
    qconfVerifyIn sumCheck [1, 2] [1, 0, 0] = (.errTblDataMess, [1, 0, 0]) := by
  have hsum : ∀ b, (sumCheck b).length = md5IntLen := fun b => List.length_replicate
  refine ⟨((checksum_frame_sound_and_complete sumCheck hsum _ _).1 _).mpr ⟨by decide, [9], rfl⟩,
    (checksum_frame_sound_and_complete sumCheck hsum _ _).2 ?_⟩
  rintro ⟨v, hv, tail, heq⟩
  have hlen := congrArg List.length heq
  rw [frameValue_eq hv] at hlen
  simp [valueSizeLen] at hlen
  omega

/-! ### Torn reads -/

/-- What a reader sees who has the first `p` bytes before an update and the others after it. -/
def tornRead (p : Nat) (before after : Bytes) : Bytes := before.take p ++ after.drop p

section

variable {p : Nat} {a b x y : Bytes}

/-- A torn read of two parts is torn in each of them. -/
theorem tornRead_append (h : a.length = b.length) :
    tornRead p (a ++ x) (b ++ y) = tornRead p a b ++ tornRead (p - a.length) x y := by
  rw [tornRead, tornRead, tornRead, List.take_append, List.drop_append, ← h]
  rcases Nat.le_total p a.length with hp | hp
  · rw [Nat.sub_eq_zero_of_le hp, List.take_zero, List.drop_zero]
    simp
  · rw [List.drop_eq_nil_of_le (h ▸ hp)]
    simp

theorem tornRead_self (p : Nat) (a : Bytes) : tornRead p a a = a := List.take_append_drop p a

theorem tornRead_zero (a b : Bytes) : tornRead 0 a b = b := rfl

theorem tornRead_of_le (h : a.length ≤ p) (hab : a.length = b.length) : tornRead p a b = a := by
  rw [tornRead, List.take_of_length_le h, List.drop_eq_nil_of_le (hab ▸ h), List.append_nil]

theorem tornRead_length (h : a.length = b.length) : (tornRead p a b).length = a.length := by
  rw [tornRead, List.length_append, List.length_take, List.length_drop, ← h]
  omega

end

section

variable {md5 : Bytes → Bytes} {v₁ v₂ : Bytes}

theorem checkOf_length (hmd5 : ∀ b, (md5 b).length = md5IntLen) (hlen : v₁.length = v₂.length) :
    (checkOf md5 v₁).length = (checkOf md5 v₂).length := by
  unfold checkOf
  rw [← hlen]
  split
  · rw [hmd5, hmd5]
  · exact hlen

/-- The parts of a torn frame. -/
theorem tornRead_frame (hlen : v₁.length = v₂.length) (hv : v₁.length < 2 ^ 32) (p : Nat) :
    tornRead p (frameValue md5 v₁) (frameValue md5 v₂) =
      leBytes valueSizeLen v₁.length ++ (tornRead (p - valueSizeLen) v₁ v₂ ++
        tornRead (p - valueSizeLen - v₁.length) (checkOf md5 v₁) (checkOf md5 v₂)) := by
  rw [frameValue_eq hv, frameValue_eq (hlen ▸ hv), ← hlen, tornRead_append rfl, tornRead_self,
    leBytes_length, tornRead_append hlen]

end

/-- **A torn read is one of the two values.**  For two values of one length, wherever the cut
is: if the string passes, it passes as one of them, provided that MD5 tells apart the
values that cuts of the two make. -/
theorem torn_read_is_one_of_two (md5 : Bytes → Bytes) (hmd5 : ∀ b, (md5 b).length = md5IntLen)
    (v₁ v₂ : Bytes) (hlen : v₁.length = v₂.length) (hv : v₁.length < 2 ^ 32)
    (hinj : Set.InjOn md5 {w | ∃ q, w = tornRead q v₁ v₂}) (p : Nat) (v : Bytes)
    (hok : qconfVerify md5 (tornRead p (frameValue md5 v₁) (frameValue md5 v₂)) = (.ok, v)) :
    v = v₁ ∨ v = v₂ := by
  obtain ⟨hvlt, tail, hs⟩ := frame_of_verify hok
  rw [tornRead_frame hlen hv, frameValue_eq hvlt, List.append_assoc] at hs
  -- both lengths stand in the same four bytes
  obtain ⟨hhead, hrest⟩ := List.append_inj hs (by rw [leBytes_length, leBytes_length])
  have hsize : v.length = v₁.length := by
    have hnat := congrArg leNat hhead
    rw [leNat_leBytes, leNat_leBytes, show 256 ^ valueSizeLen = 2 ^ 32 from rfl,
      Nat.mod_eq_of_lt hv, Nat.mod_eq_of_lt hvlt] at hnat
    exact hnat.symm
  have htorn := tornRead_length (p := p - valueSizeLen) hlen
  rw [List.append_assoc] at hrest
  obtain ⟨hval, hcheck⟩ := List.append_inj hrest (htorn.trans hsize.symm)
  rcases Nat.le_total (p - valueSizeLen) v₁.length with hcut | hcut
  · -- the check belongs to the second value
    rw [Nat.sub_eq_zero_of_le hcut, tornRead_zero] at hcheck
    rw [← List.append_nil (checkOf md5 v₂)] at hcheck
    have hsame := (List.append_inj hcheck (checkOf_length hmd5 (hlen.symm.trans hsize.symm))).1
    refine Or.inr ?_
    unfold checkOf at hsame
    rw [← hlen, hsize] at hsame
    split at hsame
    · exact hinj ⟨_, hval.symm⟩ ⟨0, (tornRead_zero v₁ v₂).symm⟩ hsame.symm
    · exact hsame.symm
  · exact Or.inl (hval.symm.trans (tornRead_of_le hcut hlen))

/-- A digest that tells `x` from the other values. -/
def xDigest (b : Bytes) : Bytes := if b = [120] then List.replicate 16 1 else List.replicate 16 0

theorem xDigest_length (b : Bytes) : (xDigest b).length = md5IntLen := by
  unfold xDigest
  split <;> rfl

/-- The read is cut in front of the values `x` and `y`. -/
theorem torn_read_of_one_byte :
    qconfVerify xDigest (tornRead 4 (frameValue xDigest [120]) (frameValue xDigest [121])) =
      (.ok, [121]) ∧ (([121] : Bytes) = [120] ∨ ([121] : Bytes) = [121]) := by
  have hok : qconfVerify xDigest (tornRead 4 (frameValue xDigest [120]) (frameValue xDigest [121])) =
      (.ok, [121]) := by decide
  have hcut : ∀ q, tornRead q [120] [121] = [121] ∨ tornRead q [120] [121] = [120] := by
    intro q
    cases q with
    | zero => exact Or.inl rfl
    | succ q => exact Or.inr (tornRead_of_le (Nat.succ_le_succ (Nat.zero_le q)) rfl)
  refine ⟨hok, torn_read_is_one_of_two xDigest xDigest_length [120] [121] rfl (by decide) ?_ 4 [121] hok⟩
  rintro w ⟨q, rfl⟩ u ⟨r, rfl⟩ heq
  rcases hcut q with hq | hq <;> rcases hcut r with hr | hr <;> rw [hq, hr] at heq ⊢ <;>
    exact absurd heq (by decide)

/-- A value whose length is a multiple of `2 ^ 32` passes as the empty one. -/
theorem verify_frameValue_wrapped {md5 : Bytes → Bytes} {v : Bytes} (h : v.length % 2 ^ 32 = 0) :
    qconfVerify md5 (frameValue md5 v) = (.ok, []) := by
  have hsize : leNat ((frameValue md5 v).take valueSizeLen) = 0 := by
    rw [frameValue, h, List.append_assoc, List.take_left' (leBytes_length _ _), leNat_leBytes]
    rfl
  have hlen : ¬ (frameValue md5 v).length < valueSizeLen + 0 * 2 := by
    rw [frameValue, List.append_assoc, List.length_append, leBytes_length]
    omega
  rw [qconfVerify, qconfVerifyIn, List.append_nil, hsize, if_neg (by decide), if_neg hlen, List.take_zero, List.take_zero, if_pos rfl]

/-- **A value of `2 ^ 32` bytes**, read while it is overwritten by itself, passes as the empty
value. -/
theorem torn_read_of_huge_value : ∃ (md5 : Bytes → Bytes) (v₁ v₂ : Bytes) (p : Nat) (v : Bytes),
    (∀ b, (md5 b).length = md5IntLen) ∧ v₁.length = v₂.length ∧
      Set.InjOn md5 {w | ∃ q, w = tornRead q v₁ v₂} ∧
      qconfVerify md5 (tornRead p (frameValue md5 v₁) (frameValue md5 v₂)) = (.ok, v) ∧
      v ≠ v₁ ∧ v ≠ v₂ := by
  obtain ⟨v, hlen⟩ : ∃ v : Bytes, v.length = 2 ^ 32 := ⟨List.replicate (2 ^ 32) 0, List.length_replicate⟩
  have hne : [] ≠ v := by
    rintro rfl
    exact absurd hlen (by decide)
  refine ⟨xDigest, v, v, 0, [], xDigest_length, rfl, ?_, ?_, hne, hne⟩
  · rintro w ⟨q, rfl⟩ u ⟨r, rfl⟩ -
    rw [tornRead_self, tornRead_self]
  · rw [tornRead_self]
    exact verify_frameValue_wrapped (by rw [hlen, Nat.mod_self])

end QConf.Shm
