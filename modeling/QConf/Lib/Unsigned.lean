import Mathlib

/-!
# Arithmetic that wraps

A computation on unsigned machine words runs on after a sum or a difference that left the range
of its type.  `Run` keeps both: what the computation ends with, an error `ε` or a value, and
whether one of its operations wrapped.  A run that equals `pure a` has the value `a` without a
single wrap, so the equations of a computation are the statements about it.
-/

namespace Unsigned

variable {ε α β : Type} {w : Nat}

/-- How a computation ends, and whether an operation wrapped on the way. -/
structure Run (ε α : Type) where
  result : Except ε α
  wrapped : Bool

instance : Monad (Run ε) where
  pure a := ⟨.ok a, false⟩
  bind x f :=
    match x.result with
    | .error e => ⟨.error e, x.wrapped⟩
    | .ok a => ⟨(f a).result, x.wrapped || (f a).wrapped⟩

/-- The computation ends here. -/
def stop (e : ε) : Run ε α := ⟨.error e, false⟩

/-- `a + b`. -/
def add (a b : BitVec w) : Run ε (BitVec w) := ⟨.ok (a + b), a.uaddOverflow b⟩

/-- `a - b`. -/
def sub (a b : BitVec w) : Run ε (BitVec w) := ⟨.ok (a - b), a.usubOverflow b⟩

@[simp] theorem pure_result (a : α) : (pure a : Run ε α).result = .ok a := rfl

@[simp] theorem pure_wrapped (a : α) : (pure a : Run ε α).wrapped = false := rfl

instance : LawfulMonad (Run ε) := LawfulMonad.mk' (Run ε)
  (fun x => by
    obtain ⟨result, wrapped⟩ := x
    cases result with
    | error e => rfl
    | ok a => exact congrArg (Run.mk _) (Bool.or_false wrapped))
  (fun a f => congrArg (Run.mk (f a).result) (Bool.false_or (f a).wrapped))
  (fun x f g => by
    obtain ⟨result, wrapped⟩ := x
    cases result with
    | error e => rfl
    | ok a =>
      change (⟨(f a).result, wrapped || (f a).wrapped⟩ : Run ε _) >>= g =
        ⟨(f a >>= g).result, wrapped || (f a >>= g).wrapped⟩
      obtain ⟨result, wrapped'⟩ := f a
      cases result with
      | error e => rfl
      | ok b => exact congrArg (Run.mk _) (Bool.or_assoc _ _ _))

@[simp] theorem wrapped_bind (a : α) (f : α → Run ε β) : (⟨.ok a, true⟩ : Run ε α) >>= f = ⟨(f a).result, true⟩ := rfl

theorem bind_result_ok {x : Run ε α} {a : α} (h : x.result = .ok a) (f : α → Run ε β) :
    (x >>= f).result = (f a).result := by
  change (match x.result with
    | .error e => (⟨.error e, x.wrapped⟩ : Run ε β)
    | .ok a => ⟨(f a).result, x.wrapped || (f a).wrapped⟩).result = _
  rw [h]

theorem bind_result_error {x : Run ε α} {e : ε} (h : x.result = .error e) (f : α → Run ε β) :
    (x >>= f).result = .error e := by
  change (match x.result with
    | .error e => (⟨.error e, x.wrapped⟩ : Run ε β)
    | .ok a => ⟨(f a).result, x.wrapped || (f a).wrapped⟩).result = _
  rw [h]

/-! ### When an operation wraps -/

theorem add_inside {a b : BitVec w} (h : a.toNat + b.toNat < 2 ^ w) : (add a b : Run ε (BitVec w)) = pure (a + b) := by
  have hflag : a.uaddOverflow b = false := decide_eq_false (Nat.not_le.mpr h)
  rw [add, hflag]
  rfl

theorem sub_inside {a b : BitVec w} (h : b.toNat ≤ a.toNat) : (sub a b : Run ε (BitVec w)) = pure (a - b) := by
  have hflag : a.usubOverflow b = false := decide_eq_false (Nat.not_lt.mpr h)
  rw [sub, hflag]
  rfl

theorem sub_wraps {a b : BitVec w} (h : a.toNat < b.toNat) : (sub a b : Run ε (BitVec w)) = ⟨.ok (a - b), true⟩ := by
  have hflag : a.usubOverflow b = true := decide_eq_true h
  rw [sub, hflag]

/-! ### Words that stand for numbers -/

theorem toNat_ofNat {k : Nat} (h : k < 2 ^ w) : (BitVec.ofNat w k).toNat = k := by
  rw [BitVec.toNat_ofNat, Nat.mod_eq_of_lt h]

theorem add_ofNat {j k : Nat} (h : k + j < 2 ^ w) :
    (add (BitVec.ofNat w k) (BitVec.ofNat w j) : Run ε (BitVec w)) = pure (BitVec.ofNat w (k + j)) := by
  have hj : (BitVec.ofNat w j).toNat = j := toNat_ofNat (Nat.lt_of_le_of_lt (Nat.le_add_left j k) h)
  have hk : (BitVec.ofNat w k).toNat = k := toNat_ofNat (Nat.lt_of_le_of_lt (Nat.le_add_right k j) h)
  rw [add_inside (by rwa [hj, hk]), BitVec.ofNat_add]

theorem sub_ofNat {j k : Nat} (h : k + j < 2 ^ w) :
    (sub (BitVec.ofNat w (k + j)) (BitVec.ofNat w j) : Run ε (BitVec w)) = pure (BitVec.ofNat w k) := by
  have hj : (BitVec.ofNat w j).toNat = j := toNat_ofNat (Nat.lt_of_le_of_lt (Nat.le_add_left j k) h)
  have hkj : (BitVec.ofNat w (k + j)).toNat = k + j := toNat_ofNat h
  rw [sub_inside (by rw [hj, hkj]; exact Nat.le_add_left j k), BitVec.ofNat_add, BitVec.add_sub_cancel]

/-- A counter goes up by one. -/
theorem add_one {k : Nat} (h : k + 1 < 2 ^ w) :
    (add (BitVec.ofNat w k) 1 : Run ε (BitVec w)) = pure (BitVec.ofNat w (k + 1)) := add_ofNat h

/-- A counter goes down by one. -/
theorem sub_one {k : Nat} (h : k + 1 < 2 ^ w) :
    (sub (BitVec.ofNat w (k + 1)) 1 : Run ε (BitVec w)) = pure (BitVec.ofNat w k) := sub_ofNat h

theorem sub_ofNat_wraps {j k : Nat} (hkj : k < j) (hj : j < 2 ^ w) :
    (sub (BitVec.ofNat w k) (BitVec.ofNat w j) : Run ε (BitVec w)) = ⟨.ok (BitVec.ofNat w k - BitVec.ofNat w j), true⟩ :=
  sub_wraps (by rwa [toNat_ofNat hj, toNat_ofNat (hkj.trans hj)])

end Unsigned
