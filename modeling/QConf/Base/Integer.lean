import QConf.Base.Common

/-!
# Reading a number and a service status

`get_integer` of the agent calls `strtol` with base 0, so a leading `0x` or `0`
selects the base.  `strtol` is modelled with its C library meaning: blanks and a
sign are skipped, the value saturates at the bounds of a `long`, and where no
digit follows the end pointer goes back to the start of the string (or behind
the `0` of a bare `0x`).
-/

namespace QConf

def isspace (b : UInt8) : Bool := b == 32 || (decide (9 ≤ b) && decide (b ≤ 13))

/-- The value of a digit or letter. -/
def digitValue (b : UInt8) : Option Nat :=
  if 48 ≤ b ∧ b ≤ 57 then some (b.toNat - 48)
  else if 97 ≤ b ∧ b ≤ 122 then some (b.toNat - 87)
  else if 65 ≤ b ∧ b ≤ 90 then some (b.toNat - 55)
  else none

/-- The number the digits in front spell, and what follows them. -/
def readDigits (base : Nat) : Bytes → Nat → Nat × Bytes
  | [], acc => (acc, [])
  | b :: rest, acc =>
    match digitValue b with
    | none => (acc, b :: rest)
    | some d => if d < base then readDigits base rest (acc * base + d) else (acc, b :: rest)

/-- `LONG_MAX`. -/
def longMax : Int := 2 ^ 63 - 1
/-- `LONG_MIN`. -/
def longMin : Int := -2 ^ 63

structure StrtolResult where
  value : Int
  /-- the string from `endptr` on -/
  rest : Bytes
  erange : Bool := false
  deriving DecidableEq, Repr

/-- What the readers of numbers read digits from: the text behind blanks and a sign. -/
def skipSign (s : Bytes) : Bytes :=
  if (s.dropWhile isspace).head? == some 45 || (s.dropWhile isspace).head? == some 43 then
    (s.dropWhile isspace).tail
  else s.dropWhile isspace

/-- Whether the sign is a minus. -/
def negative (s : Bytes) : Bool := (s.dropWhile isspace).head? == some 45

/-- A number under the sign of the text. -/
def withSign (s : Bytes) (n : Nat) : Int := if negative s then -(n : Int) else n

/-- The number whose decimal digits the text begins with, zero if it begins with none. -/
def leadingNumber (s : Bytes) : Int := withSign s (readDigits 10 (skipSign s) 0).1

/-- Whether the digits are hexadecimal. -/
def isHex (s : Bytes) : Bool := s.head? == some 48 && (s.tail.head? == some 120 || s.tail.head? == some 88)

def digitBase (s : Bytes) : Nat := if isHex s then 16 else if s.head? == some 48 then 8 else 10

def digitsOf (s : Bytes) : Bytes := if isHex s then s.tail.tail else s

/-- `strtol(s, &endptr, 0)` of a C string, as C99 and C11 have it: there is no prefix `0b`, which is
new in C23. -/
def strtol (s : Bytes) : StrtolResult :=
  let digits := digitsOf (skipSign s)
  let r := readDigits (digitBase (skipSign s)) digits 0
  if r.2.length = digits.length then
    if isHex (skipSign s) then ⟨0, (skipSign s).tail, false⟩ else ⟨0, s, false⟩
  else if longMax < withSign s r.1 then ⟨longMax, r.2, true⟩
  else if withSign s r.1 < longMin then ⟨longMin, r.2, true⟩
  else ⟨withSign s r.1, r.2, false⟩

/-- `get_integer`.  `cnt == endptr` compares the string with the C string at the
end pointer. -/
def getInteger (cnt : Bytes) : Except Ret Int :=
  if cnt = [] then .error .errParam
  else
    let r := strtol (cStr cnt)
    if (r.value = longMax ∨ r.value = longMin) ∧ r.erange then .error .errOutOfRange
    else if cnt = r.rest then .error .errNotNumber
    else if r.rest ≠ [] then .error .errOthreCharacter
    else .ok r.value

/-- The switch of `zk_get_service_status` on the value, which stays
`STATUS_UNKNOWN` where `get_integer` fails. -/
def statusOfValue (buf : Bytes) : Option Status :=
  match getInteger buf with
  | .ok 0 => some .up
  | .ok 1 => some .offline
  | .ok 2 => some .down
  | _ => none

end QConf
