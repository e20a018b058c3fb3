import QConf.Agent.Reads
import QConf.Manager.Services
import QConf.Monitor.Model

/-!
# The three readers of a service status

The value of a service node is read by the agent, by the manager and by the monitor.  The
first two use `strtol` with base 0 and want the number to end where the value ends; the monitor
uses `atoi`, which reads decimal digits, ignores what follows, takes a value without digits
for zero and cuts the number to 32 bits.

`Spells` says which values the first two accept.  All three agree on the values that spell a
status in decimal or octal digits, on a hexadecimal zero, and on values that begin with a
decimal number that is none of 0, 1 and 2 after the cut (`ReadAlike`); on no others
(`status_readers_agree_iff`).
-/

namespace QConf

/-- The character of a status. -/
def Status.digit : Status → UInt8
  | .up => 48
  | .offline => 49
  | .down => 50

/-! ### Texts -/

/-- The text has the digits of a status and nothing behind them. -/
inductive Spells (s : Bytes) (st : Status) : Prop
  | decimal (z : Nat) (digits : skipSign s = List.replicate z 48 ++ [st.digit]) (sign : negative s = true → st = .up)
  | hex (z : Nat) (x : UInt8) (letter : x = 120 ∨ x = 88)
      (digits : skipSign s = 48 :: x :: (List.replicate z 48 ++ [st.digit])) (sign : negative s = true → st = .up)

/-- The values that the three readers read alike. -/
inductive ReadAlike (s : Bytes) : Prop
  | decimal (z : Nat) (st : Status) (digits : skipSign s = List.replicate z 48 ++ [st.digit])
      (sign : negative s = true → st = .up)
  | hexZero (z : Nat) (x : UInt8) (letter : x = 120 ∨ x = 88)
      (digits : skipSign s = 48 :: x :: (List.replicate z 48 ++ [48]))
  | noStatus (st : ∀ st : Status, max longMin (min longMax (leadingNumber s)) % 2 ^ 32 ≠ st.code)

/-! ### Digits -/

theorem digitValue_lt {b : UInt8} (h : 48 ≤ b) (h' : b ≤ 57) : digitValue b = some (b.toNat - 48) := by
  rw [digitValue, if_pos ⟨h, h'⟩]

theorem digitValue_small {b : UInt8} {d : Nat} (h : digitValue b = some d) (hd : d ≤ 2) :
    ∃ st : Status, b = st.digit ∧ (d : Int) = st.code := by
  unfold digitValue at h
  split at h
  · next hb =>
    have hd' : b.toNat - 48 = d := Option.some.inj h
    have hge : 48 ≤ b.toNat := UInt8.le_iff_toNat_le.mp hb.1
    have hb' : b = UInt8.ofNat (48 + d) := by
      rw [← hd', Nat.add_sub_cancel' hge, UInt8.ofNat_toNat]
    obtain rfl | rfl | rfl : d = 0 ∨ d = 1 ∨ d = 2 := by omega
    · exact ⟨.up, hb', rfl⟩
    · exact ⟨.offline, hb', rfl⟩
    · exact ⟨.down, hb', rfl⟩
  · split at h
    · next hb =>
      have hge := UInt8.le_iff_toNat_le.mp hb.1
      have := Option.some.inj h
      simp at hge
      omega
    · split at h
      · next hb =>
        have hge := UInt8.le_iff_toNat_le.mp hb.1
        have := Option.some.inj h
        simp at hge
        omega
      · cases h

theorem readDigits_le {base : Nat} (hbase : 1 ≤ base) : ∀ (l : Bytes) (acc : Nat), acc ≤ (readDigits base l acc).1 := by
  intro l
  induction l with
  | nil => exact fun _ => Nat.le_refl _
  | cons b l ih =>
    intro acc
    rw [readDigits]
    split
    · exact Nat.le_refl _
    · next d _ =>
      split
      · exact Nat.le_trans (Nat.le_trans (Nat.le_mul_of_pos_right acc hbase) (Nat.le_add_right _ d)) (ih _)
      · exact Nat.le_refl _

/-- Digits that go to the end of the text. -/
theorem readDigits_cons {base n acc : Nat} {b : UInt8} {l : Bytes} (h : readDigits base (b :: l) acc = (n, [])) :
    ∃ d, digitValue b = some d ∧ d < base ∧ readDigits base l (acc * base + d) = (n, []) := by
  rw [readDigits] at h
  split at h
  · cases h
  · next d hd =>
    split at h
    · next hlt => exact ⟨d, hd, hlt, h⟩
    · cases h

/-- **The texts of the numbers up to two**: zeros, and one digit. -/
theorem readDigits_small {base n : Nat} (hbase : 3 ≤ base) (hn : n ≤ 2) : ∀ {l : Bytes},
    readDigits base l 0 = (n, []) → l = [] ∨
      ∃ (z : Nat) (st : Status), l = List.replicate z 48 ++ [st.digit] ∧ (n : Int) = st.code := by
  intro l
  induction l with
  | nil => exact fun _ => Or.inl rfl
  | cons b l ih =>
    intro h
    obtain ⟨d, hd, -, hrest⟩ := readDigits_cons h
    rw [Nat.zero_mul, Nat.zero_add] at hrest
    refine Or.inr ?_
    have hle : d ≤ (readDigits base l d).1 := readDigits_le (by omega) l d
    rw [hrest] at hle
    obtain ⟨st, rfl, hst⟩ := digitValue_small hd (Nat.le_trans hle hn)
    by_cases h0 : d = 0
    · -- a zero in front
      obtain rfl : st = .up := by
        rw [h0] at hst
        cases st <;> first | rfl | exact absurd hst (by decide)
      rw [h0] at hrest
      rcases ih hrest with rfl | ⟨z, st, rfl, hst⟩
      · have hn0 : 0 = n := congrArg Prod.fst hrest
        exact ⟨0, .up, rfl, by rw [← hn0]; rfl⟩
      · exact ⟨z + 1, st, rfl, hst⟩
    · cases l with
      | nil =>
        have hdn : d = n := congrArg Prod.fst hrest
        exact ⟨0, st, rfl, hdn ▸ hst⟩
      | cons c l =>
        -- a second digit makes the number larger
        obtain ⟨d', -, -, hrest⟩ := readDigits_cons hrest
        have hge : d * base + d' ≤ (readDigits base l (d * base + d')).1 := readDigits_le (by omega) l _
        rw [hrest] at hge
        have hmul : 1 * 3 ≤ d * base := Nat.mul_le_mul (by omega) hbase
        dsimp only at hge
        omega

theorem readDigits_zeros {base : Nat} (hbase : 1 ≤ base) (l : Bytes) : ∀ z : Nat,
    readDigits base (List.replicate z 48 ++ l) 0 = readDigits base l 0 := by
  intro z
  induction z with
  | zero => rfl
  | succ z ih =>
    rw [List.replicate_succ, List.cons_append, readDigits, digitValue_lt (by decide) (by decide)]
    dsimp only
    rw [if_pos (by simp; omega)]
    simpa using ih

theorem readDigits_status {base : Nat} (hbase : 3 ≤ base) (z : Nat) (st : Status) :
    readDigits base (List.replicate z 48 ++ [st.digit]) 0 = (st.code.toNat, []) := by
  rw [readDigits_zeros (by omega)]
  have hvalue : digitValue st.digit = some st.code.toNat := by cases st <;> decide
  have hlt : st.code.toNat < base := by
    have : st.code.toNat ≤ 2 := by cases st <;> decide
    omega
  rw [readDigits, hvalue]
  dsimp only
  rw [if_pos hlt, Nat.zero_mul, Nat.zero_add, readDigits]

/-! ### `strtol` with base 0 -/

theorem three_le_digitBase (s : Bytes) : 3 ≤ digitBase s := by
  unfold digitBase
  split
  · decide
  · split <;> decide

theorem isHex_iff {s : Bytes} : isHex s = true ↔ ∃ x l, (x = 120 ∨ x = 88) ∧ s = 48 :: x :: l := by
  constructor
  · intro h
    simp only [isHex, Bool.and_eq_true, Bool.or_eq_true, beq_iff_eq] at h
    obtain ⟨h0, h1⟩ := h
    match s with
    | [] => cases h0
    | [_] => simp at h1
    | a :: x :: l =>
      simp only [List.head?_cons, Option.some.injEq, List.tail_cons] at h0 h1
      exact ⟨x, l, h1, by rw [h0]⟩
  · rintro ⟨x, l, rfl | rfl, rfl⟩ <;> rfl

theorem getInteger_eq_ok_iff {d : Bytes} (hd : NulFree d) {v : Int} : getInteger d = .ok v ↔
    d ≠ [] ∧ (strtol d).rest = [] ∧ (strtol d).value = v ∧
    ¬ (((strtol d).value = longMax ∨ (strtol d).value = longMin) ∧ (strtol d).erange = true) := by
  rw [getInteger, cStr_of_nulFree hd]
  dsimp only
  by_cases hne : d = []
  · simp [hne]
  rw [if_neg hne]
  by_cases herr : ((strtol d).value = longMax ∨ (strtol d).value = longMin) ∧ (strtol d).erange = true
  · simp [herr]
  rw [if_neg herr]
  by_cases hrest : (strtol d).rest = []
  · simp [hrest, hne, herr]
  · rw [if_pos hrest]
    split <;> simp [hrest]

/-- Where `strtol` sees no digit, text is left. -/
theorem strtol_rest_of_no_digits {s : Bytes} (hs : s ≠ [])
    (h : (readDigits (digitBase (skipSign s)) (digitsOf (skipSign s)) 0).2.length = (digitsOf (skipSign s)).length) :
    (strtol s).rest ≠ [] := by
  rw [strtol, if_pos h]
  split
  · next hhex =>
    -- the end pointer is behind the zero of `0x`
    obtain ⟨x, l, -, hl⟩ := isHex_iff.mp hhex
    simp [hl]
  · exact hs

/-- **What `get_integer` accepts as a status**: digits in one of the three bases up to the end. -/
theorem getInteger_eq_code_iff {d : Bytes} (hd : NulFree d) (st : Status) : getInteger d = .ok st.code ↔
    digitsOf (skipSign d) ≠ [] ∧
    readDigits (digitBase (skipSign d)) (digitsOf (skipSign d)) 0 = (st.code.toNat, []) ∧
    (negative d = true → st = .up) := by
  have hcode : 0 ≤ st.code ∧ st.code ≤ 2 := by cases st <;> decide
  have hup : st = .up ↔ st.code = 0 := by cases st <;> decide
  have hlong : longMin < 0 ∧ 2 < longMax := by decide
  rw [getInteger_eq_ok_iff hd, hup]
  by_cases hlen : (readDigits (digitBase (skipSign d)) (digitsOf (skipSign d)) 0).2.length =
      (digitsOf (skipSign d)).length
  · constructor
    · rintro ⟨hne, hrest, -⟩
      exact absurd hrest (strtol_rest_of_no_digits hne hlen)
    · rintro ⟨hne, hread, -⟩
      rw [hread] at hlen
      exact absurd (List.length_eq_zero_iff.mp hlen.symm) hne
  rw [strtol, if_neg hlen]
  generalize hr : readDigits (digitBase (skipSign d)) (digitsOf (skipSign d)) 0 = r at hlen
  obtain ⟨n, rest⟩ := r
  dsimp only at hlen ⊢
  generalize hv : withSign d n = v
  rw [withSign] at hv
  constructor
  · rintro ⟨-, hrest, hval, hrange⟩
    refine ⟨fun h0 => hlen ?_, ?_⟩
    · rw [h0] at hr
      rw [h0, ← (Prod.mk.inj hr).2]
    by_cases hmax : longMax < v
    · rw [if_pos hmax] at hrange
      exact absurd ⟨.inl rfl, rfl⟩ hrange
    rw [if_neg hmax] at hrest hval hrange
    by_cases hmin : v < longMin
    · rw [if_pos hmin] at hrange
      exact absurd ⟨.inr rfl, rfl⟩ hrange
    rw [if_neg hmin] at hrest hval
    obtain rfl : rest = [] := hrest
    obtain rfl : v = st.code := hval
    refine ⟨Prod.ext ?_ rfl, fun hneg => ?_⟩
    · change n = st.code.toNat
      split at hv <;> omega
    · rw [if_pos hneg] at hv
      omega
  · rintro ⟨hne, hread, hsign⟩
    obtain ⟨rfl, rfl⟩ := Prod.mk.inj hread
    obtain rfl : v = st.code := by
      rw [← hv]
      split
      · next hneg =>
        have := hsign hneg
        omega
      · omega
    rw [if_neg (by omega), if_neg (by omega)]
    refine ⟨?_, rfl, rfl, fun h => by cases h.2⟩
    rintro rfl
    exact hne rfl

theorem statusOfValue_eq_some_iff_getInteger {d : Bytes} {st : Status} :
    statusOfValue d = some st ↔ getInteger d = .ok st.code := by
  unfold statusOfValue
  constructor
  · intro h
    split at h <;> first | (cases h; assumption) | cases h
  · intro h
    rw [h]
    cases st <;> rfl

/-- **The texts the agent and the manager accept.** -/
theorem statusOfValue_eq_some_iff {d : Bytes} (hd : NulFree d) {st : Status} :
    statusOfValue d = some st ↔ Spells d st := by
  rw [statusOfValue_eq_some_iff_getInteger, getInteger_eq_code_iff hd]
  have hbase := three_le_digitBase (skipSign d)
  constructor
  · rintro ⟨hne, hread, hsign⟩
    have hle : st.code.toNat ≤ 2 := by cases st <;> decide
    rcases readDigits_small hbase hle hread with h0 | ⟨z, st', hdigits, hcode⟩
    · exact absurd h0 hne
    obtain rfl : st' = st := by
      revert hcode
      cases st <;> cases st' <;> decide
    rw [digitsOf] at hdigits
    split at hdigits
    · next hhex =>
      obtain ⟨x, l, hx, hs⟩ := isHex_iff.mp hhex
      rw [hs] at hdigits
      exact .hex z x hx (by rw [hs, ← hdigits]; rfl) hsign
    · exact .decimal z hdigits hsign
  · rintro (⟨z, hdigits, hsign⟩ | ⟨z, x, hx, hdigits, hsign⟩)
    · -- the second character is a digit
      have hhex : ¬ isHex (skipSign d) = true := by
        intro h
        obtain ⟨x, l, hx, hs⟩ := isHex_iff.mp h
        have hmem : x ∈ List.replicate z 48 ++ [st.digit] := by
          rw [← hdigits, hs]
          simp
        rcases List.mem_append.mp hmem with hm | hm
        · rw [List.eq_of_mem_replicate hm] at hx
          exact absurd hx (by decide)
        · rw [List.mem_singleton.mp hm] at hx
          revert hx
          cases st <;> decide
      rw [digitsOf, if_neg hhex, hdigits]
      exact ⟨by simp, readDigits_status (three_le_digitBase _) z st, hsign⟩
    · have hhex : isHex (skipSign d) = true := isHex_iff.mpr ⟨x, _, hx, hdigits⟩
      rw [digitsOf, if_pos hhex]
      have htail : (skipSign d).tail.tail = List.replicate z 48 ++ [st.digit] := by rw [hdigits]; rfl
      rw [htail]
      exact ⟨by simp, readDigits_status hbase z st, hsign⟩

/-! ### `atoi` -/

/-- The cut to 32 bits gives a status only where the remainder is that status. -/
theorem bmod_eq_code_iff (v : Int) (st : Status) : Int.bmod v (2 ^ 32) = st.code ↔ v % 2 ^ 32 = st.code := by
  have hcode : 0 ≤ st.code ∧ st.code ≤ 2 := by cases st <;> decide
  rw [Int.bmod_def]
  split <;> omega

/-- **What the monitor reads.** -/
theorem monitor_reads_iff {r : Monitor.Reads} {path d : Bytes} (hpath : path ≠ []) (hr : r.value path = some d)
    (hd : NulFree d) (st : Status) : r.zkGetServiceStatus path = some st.code ↔
      max longMin (min longMax (leadingNumber d)) % 2 ^ 32 = st.code := by
  rw [Monitor.Reads.zkGetServiceStatus, if_neg hpath, hr, Option.bind_some, cStr_of_nulFree hd, ← bmod_eq_code_iff,
    ← Monitor.atoi]
  generalize Monitor.atoi d = v
  dsimp only
  constructor
  · intro h
    split at h
    · exact Option.some.inj h
    · cases h
  · rintro rfl
    exact if_pos (by cases st <;> decide)

theorem monitor_reads_code {r : Monitor.Reads} {path : Bytes} {v : Int} (h : r.zkGetServiceStatus path = some v) :
    ∃ st : Status, v = st.code := by
  rw [Monitor.Reads.zkGetServiceStatus] at h
  split at h
  · cases h
  obtain ⟨buf, -, h⟩ := Option.bind_eq_some_iff.mp h
  dsimp only at h
  split at h
  · next hv =>
    obtain rfl := Option.some.inj h
    rcases hv with hv | hv | hv
    · exact ⟨.up, hv⟩
    · exact ⟨.down, hv⟩
    · exact ⟨.offline, hv⟩
  · cases h

theorem clamp_code (st : Status) : max longMin (min longMax st.code) % 2 ^ 32 = st.code := by
  cases st <;> decide

/-- A status in decimal digits is the number that the text begins with. -/
theorem leadingNumber_decimal {s : Bytes} {z : Nat} {st : Status}
    (h : skipSign s = List.replicate z 48 ++ [st.digit]) (hsign : negative s = true → st = .up) :
    leadingNumber s = st.code := by
  rw [leadingNumber, withSign, h, readDigits_status (by decide)]
  have hcode : 0 ≤ st.code := by cases st <;> decide
  split
  · next hneg =>
    rw [hsign hneg]
    rfl
  · exact Int.toNat_of_nonneg hcode

/-- The letter of a hexadecimal number ends the decimal one. -/
theorem leadingNumber_hex {s : Bytes} {x : UInt8} {l : Bytes} (hx : x = 120 ∨ x = 88)
    (h : skipSign s = 48 :: x :: l) : leadingNumber s = 0 := by
  have hread : (readDigits 10 (skipSign s) 0).1 = 0 := by
    rw [h]
    rcases hx with rfl | rfl <;> rfl
  rw [leadingNumber, withSign, hread]
  split <;> rfl

/-! ### The three readers -/

theorem agent_reads {t : ZkTree} {path d : Bytes} (ht : t.nodes.lookup path = some d) :
    (Scan.zkGetServiceStatus (.quiet t) path).1 = statusOfValue d := by
  have hv := t.valid path (ZkTree.mem_of_lookup ht)
  rw [Scan.zkGetServiceStatus, Gray.zkGetNode, Manager.zooGet_quiet t (isValidPath_nulFree hv),
    ZkTree.get_eq_ok.mpr ht]
  simp only [Except.map, ZkTree.take_maxValueSize ht]

/-- The manager accepts what the agent accepts. -/
theorem manager_reads {t : ZkTree} {path d : Bytes} (ht : t.nodes.lookup path = some d) :
    (Manager.zkServiceStatusGet (.quiet t) path).1 =
      match statusOfValue d with
      | some st => .ok st.code
      | none => .error .errOther := by
  rw [Manager.zkServiceStatusGet, Manager.zkGet_quiet ht]
  dsimp only
  rw [Manager.stringToInteger]
  cases hst : statusOfValue d with
  | some st =>
    rw [statusOfValue_eq_some_iff_getInteger.mp hst]
    cases st <;> rfl
  | none =>
    have hno : ∀ st : Status, getInteger d ≠ .ok st.code := fun st h => by
      rw [statusOfValue_eq_some_iff_getInteger.mpr h] at hst
      cases hst
    cases hget : getInteger d with
    | error e => rfl
    | ok v =>
      have hvalue : ¬ Manager.isStatus v = true := by
        intro h
        rw [hget] at hno
        simp only [Manager.isStatus, Bool.or_eq_true, beq_iff_eq] at h
        rcases h with (rfl | rfl) | rfl
        · exact hno .up rfl
        · exact hno .down rfl
        · exact hno .offline rfl
      simp [hvalue]

/-- **The three readers agree on a value exactly where it is `ReadAlike`.** -/
theorem status_readers_agree_iff (t : ZkTree) (r : Monitor.Reads) (path d : Bytes)
    (ht : t.nodes.lookup path = some d) (hr : r.value path = some d) (hd : NulFree d) :
    (∃ o : Option Status, (Scan.zkGetServiceStatus (.quiet t) path).1 = o ∧
      (Manager.zkServiceStatusGet (.quiet t) path).1 =
        (match o with
        | some st => .ok st.code
        | none => .error .errOther) ∧
      r.zkGetServiceStatus path = o.map Status.code) ↔ ReadAlike d := by
  have hpath : path ≠ [] := by
    rintro rfl
    exact absurd (t.valid [] (ZkTree.mem_of_lookup ht)) (by decide)
  have hmon := monitor_reads_iff hpath hr hd
  constructor
  · rintro ⟨o, hagent, -, hread⟩
    rw [agent_reads ht] at hagent
    cases o with
    | none =>
      refine .noStatus fun st h => ?_
      rw [(hmon st).mpr h] at hread
      cases hread
    | some st =>
      have hst := (hmon st).mp hread
      rcases (statusOfValue_eq_some_iff hd).mp hagent with ⟨z, hdigits, hsign⟩ | ⟨z, x, hx, hdigits, -⟩
      · exact .decimal z st hdigits hsign
      · -- the monitor reads the zero in front
        rw [leadingNumber_hex hx hdigits] at hst
        obtain rfl : st = .up := by
          revert hst
          cases st <;> decide
        exact .hexZero z x hx hdigits
  · intro h
    refine ⟨statusOfValue d, agent_reads ht, manager_reads ht, ?_⟩
    cases h with
    | decimal z st hdigits hsign =>
      rw [(statusOfValue_eq_some_iff hd).mpr (.decimal z hdigits hsign)]
      refine (hmon st).mpr ?_
      rw [leadingNumber_decimal hdigits hsign, clamp_code]
    | hexZero z x hx hdigits =>
      have hup : Spells d .up := .hex z x hx hdigits (fun _ => rfl)
      rw [(statusOfValue_eq_some_iff hd).mpr hup]
      refine (hmon .up).mpr ?_
      rw [leadingNumber_hex hx hdigits]
      exact clamp_code .up
    | noStatus hno =>
      have hmonitor : r.zkGetServiceStatus path = none := by
        rw [Option.eq_none_iff_forall_ne_some]
        intro v hv
        obtain ⟨st, rfl⟩ := monitor_reads_code hv
        exact hno st ((hmon st).mp hv)
      have hagent : statusOfValue d = none := by
        rw [Option.eq_none_iff_forall_ne_some]
        intro st hst
        rcases (statusOfValue_eq_some_iff hd).mp hst with ⟨z, hdigits, hsign⟩ | ⟨z, x, hx, hdigits, -⟩
        · exact hno st (by rw [leadingNumber_decimal hdigits hsign, clamp_code])
        · exact hno .up (by rw [leadingNumber_hex hx hdigits]; exact clamp_code .up)
      rw [hmonitor, hagent]
      rfl

/-- A tree with one service node `/a`. -/
def oneServiceTree (d : Bytes) (hs : d.length ≤ zkMaxData) : ZkTree :=
  ZkTree.empty.put [47, 97] d (by decide) hs (by decide)

/-- `1` is offline for all three. -/
theorem status_one_read_alike : ∃ o : Option Status,
    (Scan.zkGetServiceStatus (.quiet (oneServiceTree [49] (by decide))) [47, 97]).1 = o ∧
    (Manager.zkServiceStatusGet (.quiet (oneServiceTree [49] (by decide))) [47, 97]).1 =
      (match o with
      | some st => .ok st.code
      | none => .error .errOther) ∧
    Monitor.Reads.zkGetServiceStatus ⟨fun _ => none, fun _ => some [49]⟩ [47, 97] = o.map Status.code :=
  (status_readers_agree_iff (oneServiceTree [49] (by decide)) ⟨fun _ => none, fun _ => some [49]⟩ [47, 97] [49]
    (by decide) rfl (by decide)).mpr (.decimal 0 .offline rfl (by decide))

/-- **A hexadecimal status**: `0x1` is offline for the agent and the manager, and up for the monitor. -/
theorem hex_status_read_differently :
    (Scan.zkGetServiceStatus (.quiet (oneServiceTree [48, 120, 49] (by decide))) [47, 97]).1 = some .offline ∧
    (Manager.zkServiceStatusGet (.quiet (oneServiceTree [48, 120, 49] (by decide))) [47, 97]).1 =
      .ok Status.offline.code ∧
    Monitor.Reads.zkGetServiceStatus ⟨fun _ => none, fun _ => some [48, 120, 49]⟩ [47, 97] = some Status.up.code := by
  refine ⟨?_, ?_, by decide +kernel⟩
  · decide +kernel
  · decide +kernel

end QConf
