import Mathlib

/-!
# Length-prefixed byte strings

A record format built from fixed-width little-endian numbers and byte strings
that carry their length in front.  `field w b` is the string `b` behind a
`w`-byte length, and `readField w s pos` reads one back at a position of a
buffer, refusing to look past the end.

* `readField_append` reads what `field` wrote, wherever it stands.
* `readField_some` says what an accepted field looks like.
* `readField_take` says that a reader of a prefix sees what the reader of the
  whole buffer sees, so a truncated buffer can only fail earlier.
-/

/-- A byte string. -/
abbrev Bytes := List UInt8

namespace ByteCodec

/-! ### Little-endian numbers -/

/-- The low `w` bytes of `n`, least significant first. -/
def leBytes : Nat → Nat → Bytes
  | 0, _ => []
  | w + 1, n => UInt8.ofNat n :: leBytes w (n / 256)

/-- The number that a little-endian byte string stands for. -/
def leNat : Bytes → Nat
  | [] => 0
  | b :: bs => b.toNat + 256 * leNat bs

@[simp] theorem leBytes_length (w n : Nat) : (leBytes w n).length = w := by
  induction w generalizing n with
  | zero => rfl
  | succ w ih => rw [leBytes, List.length_cons, ih]

/-- **A number survives in as many bytes as it needs**, and wraps in fewer. -/
theorem leNat_leBytes : ∀ (w n : Nat), leNat (leBytes w n) = n % 256 ^ w := by
  intro w
  induction w with
  | zero => intro n; simp [leBytes, leNat, Nat.mod_one]
  | succ w ih =>
    intro n
    have hpow : 256 ^ (w + 1) = 256 * 256 ^ w := pow_succ' 256 w
    rw [leBytes, leNat, ih, UInt8.toNat_ofNat', hpow]
    exact Nat.mod_mul.symm

theorem leNat_lt : ∀ bs : Bytes, leNat bs < 256 ^ bs.length := by
  intro bs
  induction bs with
  | nil => simp [leNat]
  | cons b bs ih =>
    have hb : b.toNat < 256 := b.toNat_lt
    rw [leNat, List.length_cons, pow_succ']
    omega

theorem leBytes_leNat : ∀ bs : Bytes, leBytes bs.length (leNat bs) = bs := by
  intro bs
  induction bs with
  | nil => rfl
  | cons b bs ih =>
    have hb : b.toNat < 256 := b.toNat_lt
    have hlow : UInt8.ofNat (b.toNat + 256 * leNat bs) = b := by
      apply UInt8.toNat_inj.mp
      rw [UInt8.toNat_ofNat']
      omega
    have hhigh : (b.toNat + 256 * leNat bs) / 256 = leNat bs := by omega
    rw [List.length_cons, leNat, leBytes, hlow, hhigh, ih]

/-- A number that was cut to its low `w` bytes has the same ones. -/
theorem leBytes_mod (w n : Nat) : leBytes w (n % 256 ^ w) = leBytes w n := by
  have h := leBytes_leNat (leBytes w n)
  rwa [leBytes_length, leNat_leBytes] at h

/-! ### Fields -/

/-- The byte string `b` behind its own length, written in `w` bytes. -/
def field (w : Nat) (b : Bytes) : Bytes := leBytes w b.length ++ b

@[simp] theorem field_length (w : Nat) (b : Bytes) : (field w b).length = w + b.length := by
  rw [field, List.length_append, leBytes_length]

/-- Reads a field at position `pos` and returns it with the position behind it. -/
def readField (w : Nat) (s : Bytes) (pos : Nat) : Option (Bytes × Nat) :=
  if pos + w ≤ s.length then
    let size := leNat ((s.drop pos).take w)
    if pos + w + size ≤ s.length then
      some ((s.drop (pos + w)).take size, pos + w + size)
    else none
  else none

/-- A field is read up to its length modulo what the prefix can hold. -/
theorem readField_append_mod (w : Nat) (b pre suf : Bytes) :
    readField w (pre ++ field w b ++ suf) pre.length =
      some (b.take (b.length % 256 ^ w), pre.length + w + b.length % 256 ^ w) := by
  have hlen : (pre ++ field w b ++ suf).length = pre.length + w + b.length + suf.length := by
    simp [field_length, Nat.add_assoc]
  have hle : b.length % 256 ^ w ≤ b.length := Nat.mod_le _ _
  have hdrop : (pre ++ field w b ++ suf).drop pre.length = field w b ++ suf := by
    rw [List.append_assoc, List.drop_left]
  have hsize : leNat (((pre ++ field w b ++ suf).drop pre.length).take w) = b.length % 256 ^ w := by
    rw [hdrop, field, List.append_assoc, List.take_left' (leBytes_length w _), leNat_leBytes]
  have hbody : (pre ++ field w b ++ suf).drop (pre.length + w) = b ++ suf := by
    rw [← List.drop_drop, hdrop, field, List.append_assoc, List.drop_left' (leBytes_length w _)]
  rw [readField, if_pos (by omega)]
  simp only [hsize]
  rw [if_pos (by omega), hbody, List.take_append_of_le_length hle]

/-- **What was written is read back**, provided its length fits the prefix. -/
theorem readField_append {w : Nat} {b : Bytes} (hb : b.length < 256 ^ w) (pre suf : Bytes) :
    readField w (pre ++ field w b ++ suf) pre.length = some (b, pre.length + w + b.length) := by
  rw [readField_append_mod, Nat.mod_eq_of_lt hb, List.take_length]

/-- **An accepted field is a written one**: its length fits the prefix and the
buffer holds exactly `field w b` between the two positions. -/
theorem readField_some {w : Nat} {s b : Bytes} {pos pos' : Nat}
    (h : readField w s pos = some (b, pos')) :
    b.length < 256 ^ w ∧ pos' = pos + w + b.length ∧ pos' ≤ s.length ∧
      (s.drop pos).take (w + b.length) = field w b := by
  rw [readField] at h
  split at h
  case isFalse => exact absurd h (by simp)
  case isTrue hw =>
    simp only at h
    split at h
    case isFalse => exact absurd h (by simp)
    case isTrue hs =>
      simp only [Option.some.injEq, Prod.mk.injEq] at h
      obtain ⟨rfl, rfl⟩ := h
      have hwl : ((s.drop pos).take w).length = w := by
        rw [List.length_take, List.length_drop]; omega
      have hbl : ((s.drop (pos + w)).take (leNat ((s.drop pos).take w))).length
          = leNat ((s.drop pos).take w) := by
        rw [List.length_take, List.length_drop]; omega
      refine ⟨?_, by rw [hbl], hs, ?_⟩
      · rw [hbl]
        exact lt_of_lt_of_eq (leNat_lt _) (by rw [hwl])
      · rw [field, hbl, List.take_add, List.drop_drop]
        have := leBytes_leNat ((s.drop pos).take w)
        rw [hwl] at this
        rw [this]

/-- An accepted field is what stands between the two positions. -/
theorem readField_drop {w : Nat} {s b : Bytes} {pos pos' : Nat}
    (h : readField w s pos = some (b, pos')) : s.drop pos = field w b ++ s.drop pos' := by
  obtain ⟨-, hpos, -, hfield⟩ := readField_some h
  rw [← hfield, hpos, Nat.add_assoc, ← List.drop_drop, List.take_append_drop]

/-- A reader of a prefix sees what the reader of the whole buffer sees. -/
theorem readField_take {w n pos pos' : Nat} {s b : Bytes}
    (h : readField w (s.take n) pos = some (b, pos')) :
    readField w s pos = some (b, pos') ∧ pos' ≤ n := by
  obtain ⟨hb, hpos, hle, hfield⟩ := readField_some h
  rw [List.length_take] at hle
  have hcut : ((s.take n).drop pos).take (w + b.length) = (s.drop pos).take (w + b.length) := by
    rw [List.drop_take, List.take_take, Nat.min_eq_left (by omega)]
  have hsplit : s = s.take pos ++ field w b ++ s.drop pos' := by
    rw [← hfield, hcut, List.append_assoc, hpos, Nat.add_assoc, ← List.drop_drop,
      List.take_append_drop, List.take_append_drop]
  have hplen : (s.take pos).length = pos := by rw [List.length_take]; omega
  refine ⟨?_, by omega⟩
  have := readField_append hb (s.take pos) (s.drop pos')
  rw [← hsplit, hplen] at this
  rw [this, hpos]

/-- Two fields of one width that start the same string are the same field. -/
theorem field_append_inj {w : Nat} {a b x y : Bytes} (ha : a.length < 256 ^ w)
    (hb : b.length < 256 ^ w) (h : field w a ++ x = field w b ++ y) : a = b ∧ x = y := by
  have h1 := readField_append ha [] x
  have h2 := readField_append hb [] y
  simp only [List.nil_append, h] at h1 h2
  rw [h1] at h2
  obtain ⟨rfl, -⟩ := Prod.mk.inj (Option.some.inj h2)
  exact ⟨rfl, List.append_cancel_left h⟩

end ByteCodec
