import QConf.Base.Common
import QConf.Lib.Lines
import QConf.Lib.Trim
import QConf.Lib.Unsigned

/-!
# The command file of the monitor

On `SIGUSR1` the monitor reads its command file line by line, trims every line and handles the
command on it.  `trim` moves two indices of type `size_t` towards each other, the right one from
`size() - 1` down.

* A string with a character that is not white is trimmed as it should be.
* For a string of nothing but white characters the result is right, the empty string, but the
  indices have crossed and `right - left + 1` wraps twice to get there.
* For the empty string `size() - 1` wraps, and the first read of the second loop is outside.

So `trim` does what it is for exactly on the strings of the first kind (`trim_total_iff`); on those
of the second it cannot be applied again.  The last line of a file that ends with a newline is
of the third kind (`processFileMsg_newline`).
-/

namespace QConf.Process

open Unsigned

/-! ### The functions -/

/-- `size_t`. -/
abbrev SizeT := BitVec 64

/-- A `std::string`, whose size is a `size_t`. -/
@[ext] structure Str where
  data : Bytes
  size_lt : data.length < 2 ^ 64

/-- What ends a call other than its return. -/
inductive Fault
  | outside     -- a character was read that the string does not have
  | outOfRange  -- `substr` threw
  | endless     -- a loop made more rounds than the string has characters, and one more
  deriving DecidableEq, Repr

/-- `str.size()`. -/
def Str.size (s : Str) : SizeT := BitVec.ofNat 64 s.data.length

/-- `str[i]`. -/
def Str.at (s : Str) (i : SizeT) : Run Fault UInt8 :=
  match s.data[i.toNat]? with
  | none => stop .outside
  | some c => pure c

/-- `str.substr(pos, len)`. -/
def Str.substr (s : Str) (pos len : SizeT) : Run Fault Str :=
  if s.size < pos then stop .outOfRange
  else
    pure ⟨(s.data.drop pos.toNat).take len.toNat, by
      rw [List.length_take, List.length_drop]
      have := s.size_lt
      omega⟩

/-- `c == ' ' || c == '\t' || c == '\n' || c == '\r'`. -/
def isWhite (c : UInt8) : Bool := c == 32 || c == 9 || c == 10 || c == 13

/-- The first loop of `trim`. -/
def skipLeft (str : Str) : Nat → SizeT → Run Fault SizeT
  | 0, _ => stop .endless
  | fuel + 1, left =>
    if left < str.size then do
      let c ← str.at left
      if isWhite c then do
        let left ← add left 1
        skipLeft str fuel left
      else pure left
    else pure left

/-- The second loop of `trim`. -/
def skipRight (str : Str) (left : SizeT) : Nat → SizeT → Run Fault SizeT
  | 0, _ => stop .endless
  | fuel + 1, right =>
    if left ≤ right then do
      let c ← str.at right
      if isWhite c then do
        let right ← sub right 1
        skipRight str left fuel right
      else pure right
    else pure right

/-- `trim`. -/
def trim (str : Str) : Run Fault Str := do
  let left ← skipLeft str (str.data.length + 1) 0
  let right ← sub str.size 1
  let right ← skipRight str left (str.data.length + 1) right
  let len ← sub right left
  let len ← add len 1
  str.substr left len

/-! ### The loops -/

section

variable {str : Str} {pre body post ws : Bytes}

theorem Str.toNat_index (str : Str) {k : Nat} (hk : k ≤ str.data.length) : (BitVec.ofNat 64 k).toNat = k :=
  toNat_ofNat (hk.trans_lt str.size_lt)

theorem Str.at_of_split {c : UInt8} (h : str.data = pre ++ c :: post) : str.at (BitVec.ofNat 64 pre.length) = pure c := by
  have hlen : pre.length ≤ str.data.length := by
    rw [h, List.length_append]
    exact Nat.le_add_right _ _
  rw [Str.at, str.toNat_index hlen, h, List.getElem?_append_right (Nat.le_refl _), Nat.sub_self]
  rfl

/-- The first loop goes over white characters and stops behind them. -/
theorem skipLeft_white : ∀ (pre : Bytes) (fuel : Nat), str.data = pre ++ (ws ++ post) → (∀ c ∈ ws, isWhite c = true) →
    (∀ c, post.head? = some c → isWhite c = false) → ws.length < fuel →
    skipLeft str fuel (BitVec.ofNat 64 pre.length) = pure (BitVec.ofNat 64 (pre.length + ws.length)) := by
  induction ws with
  | nil =>
    intro pre fuel h _ hpost hfuel
    obtain ⟨fuel, rfl⟩ : ∃ f, fuel = f + 1 := ⟨fuel - 1, by simp at hfuel; omega⟩
    rw [List.nil_append] at h
    rw [skipLeft, List.length_nil, Nat.add_zero]
    cases post with
    | nil =>
      have hend : str.size = BitVec.ofNat 64 pre.length := by rw [Str.size, h, List.append_nil]
      rw [hend, if_neg (BitVec.lt_irrefl _)]
    | cons c post =>
      rw [Str.at_of_split h, pure_bind, hpost c rfl]
      simp
  | cons c ws ih =>
    intro pre fuel h hws hpost hfuel
    obtain ⟨fuel, rfl⟩ : ∃ f, fuel = f + 1 := ⟨fuel - 1, by simp at hfuel; omega⟩
    have hsize := str.size_lt
    have hlen : str.data.length = pre.length + (ws.length + post.length + 1) := by
      rw [h]
      simp
    have hlt : BitVec.ofNat 64 pre.length < str.size := by
      rw [BitVec.lt_def, Str.size, str.toNat_index (by omega), toNat_ofNat hsize]
      omega
    have hrest := ih (pre ++ [c]) fuel (by rw [h]; simp) (fun d hd => hws d (List.mem_cons_of_mem _ hd)) hpost
      (by simpa using hfuel)
    rw [List.length_append, List.length_singleton] at hrest
    rw [skipLeft, if_pos hlt, Str.at_of_split h, pure_bind, if_pos (hws c List.mem_cons_self),
      add_one (by omega), pure_bind, hrest,
      List.length_cons, Nat.add_assoc, Nat.add_comm 1]

/-- The second loop goes down over white characters and stops at the first other one. -/
theorem skipRight_white {c : UInt8} {left : Nat} (hleft : left ≤ pre.length) (hc : isWhite c = false) :
    ∀ (post : Bytes) (fuel : Nat), str.data = pre ++ c :: (ws ++ post) → (∀ d ∈ ws, isWhite d = true) →
    ws.length < fuel →
    skipRight str (BitVec.ofNat 64 left) fuel (BitVec.ofNat 64 (pre.length + ws.length)) =
      pure (BitVec.ofNat 64 pre.length) := by
  induction ws using List.reverseRecOn with
  | nil =>
    intro post fuel h _ hfuel
    obtain ⟨fuel, rfl⟩ : ∃ f, fuel = f + 1 := ⟨fuel - 1, by simp at hfuel; omega⟩
    have hlen : str.data.length = pre.length + (post.length + 1) := by
      rw [h]
      simp
    have hle : BitVec.ofNat 64 left ≤ BitVec.ofNat 64 pre.length := by
      rw [BitVec.le_def, str.toNat_index (by omega), str.toNat_index (by omega)]
      exact hleft
    change skipRight str (BitVec.ofNat 64 left) (fuel + 1) (BitVec.ofNat 64 pre.length) = _
    rw [skipRight, if_pos hle, Str.at_of_split h, pure_bind, hc]
    simp
  | append_singleton ws d ih =>
    intro post fuel h hws hfuel
    obtain ⟨fuel, rfl⟩ : ∃ f, fuel = f + 1 := ⟨fuel - 1, by simp at hfuel; omega⟩
    have hsize := str.size_lt
    have hlen : str.data.length = pre.length + (ws.length + 1 + (post.length + 1)) := by
      rw [h]
      simp
      omega
    -- the index is that of `d`
    have hsplit : str.data = (pre ++ c :: ws) ++ d :: post := by
      rw [h]
      simp
    have hidx : (pre ++ c :: ws).length = pre.length + ws.length + 1 := by
      simp
      omega
    have hle : BitVec.ofNat 64 left ≤ BitVec.ofNat 64 (pre.length + ws.length + 1) := by
      rw [BitVec.le_def, str.toNat_index (by omega), str.toNat_index (by omega)]
      omega
    have hat := Str.at_of_split hsplit
    rw [hidx] at hat
    have hrest := ih (d :: post) fuel (by rw [h]; simp) (fun e he => hws e (List.mem_append_left _ he))
      (by simpa using hfuel)
    rw [List.length_append, List.length_singleton, ← Nat.add_assoc, skipRight, if_pos hle, hat, pure_bind,
      if_pos (hws d (by simp)), sub_one (by omega), pure_bind, hrest]

/-! ### What a string is trimmed to -/

/-- The string without the white characters at its ends. -/
def Str.trimmed (s : Str) : Str := ⟨Trim.trim isWhite s.data, (Trim.length_trim_le _ _).trans_lt s.size_lt⟩

theorem Str.trimmed_ne_nil (h : ∃ c ∈ str.data, isWhite c = false) : str.trimmed.data ≠ [] := fun h0 => by
  obtain ⟨c, hc, hink⟩ := h
  rw [Trim.trim_eq_nil_iff.mp h0 c hc] at hink
  cases hink

theorem Str.substr_split (h : str.data = pre ++ (body ++ post)) : ∃ r : Str, r.data = body ∧
    str.substr (BitVec.ofNat 64 pre.length) (BitVec.ofNat 64 body.length) = pure r := by
  have hlen : str.data.length = pre.length + (body.length + post.length) := by
    rw [h]
    simp
  have hpos : ¬ str.size < BitVec.ofNat 64 pre.length := by
    rw [BitVec.lt_def, Str.size, str.toNat_index (by omega), str.toNat_index (by omega)]
    omega
  rw [Str.substr, if_neg hpos]
  refine ⟨_, ?_, rfl⟩
  change (str.data.drop (BitVec.ofNat 64 pre.length).toNat).take (BitVec.ofNat 64 body.length).toNat = body
  rw [str.toNat_index (by omega), str.toNat_index (by omega), h, List.drop_left, List.take_left]

/-- **A string with a character that is not white**: every index stays in its range. -/
theorem trim_of_ink (h : ∃ c ∈ str.data, isWhite c = false) : trim str = pure str.trimmed := by
  obtain ⟨pre, post, hs⟩ := Trim.exists_split isWhite str.data
  have hne : Trim.trim isWhite str.data ≠ [] := Str.trimmed_ne_nil h
  obtain ⟨r, hr, hsubstr⟩ := Str.substr_split hs.eq
  obtain rfl : r = str.trimmed := Str.ext hr
  obtain ⟨b, c, hbody⟩ := (List.eq_nil_or_concat' _).resolve_left hne
  have hlast : isWhite c = false := hs.last c (by rw [hbody, List.getLast?_concat])
  rw [hbody, List.length_append, List.length_singleton] at hsubstr
  have hdata : str.data = (pre ++ b) ++ c :: (post ++ []) := by
    rw [hs.eq, hbody]
    simp
  have hlen : str.data.length = pre.length + b.length + post.length + 1 := by
    rw [hdata]
    simp
    omega
  have hsize := str.size_lt
  have hleft : skipLeft str (str.data.length + 1) 0 = pure (BitVec.ofNat 64 pre.length) := by
    have := skipLeft_white [] (str.data.length + 1) (by rw [List.nil_append]; exact hs.eq) hs.pre
      (fun d hd => hs.head d (by rwa [List.head?_append_of_ne_nil _ hne] at hd)) (by omega)
    rwa [List.length_nil, Nat.zero_add] at this
  have hright : skipRight str (BitVec.ofNat 64 pre.length) (str.data.length + 1)
      (BitVec.ofNat 64 (pre.length + b.length + post.length)) = pure (BitVec.ofNat 64 (pre.length + b.length)) := by
    have hle : pre.length ≤ (pre ++ b).length := by simp
    have := skipRight_white hle hlast [] (str.data.length + 1) hdata hs.post (by omega)
    rwa [List.length_append] at this
  have hdiff : (sub (BitVec.ofNat 64 (pre.length + b.length)) (BitVec.ofNat 64 pre.length) : Run Fault SizeT) =
      pure (BitVec.ofNat 64 b.length) := by
    rw [Nat.add_comm]
    exact sub_ofNat (by omega)
  rw [trim, hleft, pure_bind, Str.size, hlen, sub_one (by omega), pure_bind, ← hlen, hright, pure_bind, hdiff, pure_bind,
    add_one (by omega), pure_bind, hsubstr]

/-- **A string of white characters** is trimmed to nothing behind its end, with a length that wraps. -/
theorem trim_of_white (hne : str.data ≠ []) (hall : ∀ c ∈ str.data, isWhite c = true) :
    trim str = ⟨.ok str.trimmed, true⟩ := by
  have hpos := List.length_pos_iff.mpr hne
  have hsize := str.size_lt
  obtain ⟨k, hk⟩ : ∃ k, str.data.length = k + 1 := ⟨str.data.length - 1, by omega⟩
  have hleft : skipLeft str (k + 1 + 1) 0 = pure (BitVec.ofNat 64 (k + 1)) := by
    have hsplit : str.data = [] ++ (str.data ++ []) := by simp
    have := skipLeft_white [] (k + 1 + 1) hsplit hall (by simp) (by omega)
    rwa [List.length_nil, Nat.zero_add, hk] at this
  have hright : skipRight str (BitVec.ofNat 64 (k + 1)) (k + 1 + 1) (BitVec.ofNat 64 k) = pure (BitVec.ofNat 64 k) := by
    have hcross : ¬ BitVec.ofNat 64 (k + 1) ≤ BitVec.ofNat 64 k := by
      rw [BitVec.le_def, str.toNat_index (by omega), str.toNat_index (by omega)]
      omega
    rw [skipRight, if_neg hcross]
  have hzero : (BitVec.ofNat 64 k - BitVec.ofNat 64 (k + 1) + 1 : SizeT) = BitVec.ofNat 64 0 := by
    rw [BitVec.ofNat_add]
    bv_omega
  have hend : str.data = str.data ++ ([] ++ []) := by simp
  obtain ⟨r, hr, hsubstr⟩ := Str.substr_split hend
  have htrimmed : r = str.trimmed := Str.ext (hr.trans (Trim.trim_eq_nil_iff.mpr hall).symm)
  rw [hk, List.length_nil, htrimmed] at hsubstr
  rw [trim, hk, hleft, pure_bind, Str.size, hk, sub_one (by omega), pure_bind, hright, pure_bind,
    sub_ofNat_wraps (Nat.lt_succ_self k) (by omega), wrapped_bind]
  refine congrArg (Run.mk · true) ?_
  rw [bind_result_ok rfl, hzero, hsubstr]
  rfl

/-- **The empty string**: its last index wraps, and is read. -/
theorem trim_of_nil (h : str.data = []) : trim str = ⟨.error .outside, true⟩ := by
  obtain ⟨data, hsize⟩ := str
  subst h
  rfl

/-- The result of `trim` is right but for the empty string. -/
theorem trim_result (str : Str) :
    (trim str).result = if str.data = [] then .error .outside else .ok str.trimmed := by
  by_cases hne : str.data = []
  · rw [trim_of_nil hne, if_pos hne]
  · rw [if_neg hne]
    by_cases h : ∃ c ∈ str.data, isWhite c = false
    · rw [trim_of_ink h]
      rfl
    · rw [trim_of_white hne (by simpa using h)]

/-- Its arithmetic wraps where nothing is left. -/
theorem trim_wrapped (str : Str) : (trim str).wrapped = true ↔ ∀ c ∈ str.data, isWhite c = true := by
  by_cases hne : str.data = []
  · rw [trim_of_nil hne, hne]
    simp
  · by_cases h : ∃ c ∈ str.data, isWhite c = false
    · rw [trim_of_ink h]
      simpa using h
    · rw [trim_of_white hne (by simpa using h)]
      simpa using h

end

/-- What `trim` is for. -/
structure TrimsWell (str : Str) : Prop where
  inside : (trim str).result ≠ .error .outside
  unwrapped : (trim str).wrapped = false
  ends : (trim str).result ≠ .error .endless
  result : (trim str).result = .ok str.trimmed
  idempotent : ∀ r, (trim str).result = .ok r → (trim r).result = .ok r

/-- **`trim` does what it is for exactly on the strings that are not all white.** -/
theorem trim_total_iff (str : Str) : TrimsWell str ↔ ∃ c ∈ str.data, isWhite c = false := by
  constructor
  · intro h
    have hwrapped : ¬ ∀ c ∈ str.data, isWhite c = true := by
      rw [← trim_wrapped, h.unwrapped]
      exact Bool.false_ne_true
    simpa using hwrapped
  · intro h
    have htrim := trim_of_ink h
    have hagain : str.trimmed.trimmed = str.trimmed := Str.ext (Trim.trim_trim isWhite str.data)
    refine ⟨?_, ?_, ?_, ?_, ?_⟩
    · rw [htrim]
      simp
    · rw [htrim]
      rfl
    · rw [htrim]
      simp
    · rw [htrim]
      rfl
    · intro r hr
      rw [htrim] at hr
      obtain rfl : str.trimmed = r := Except.ok.inj hr
      rw [trim_result, if_neg (Str.trimmed_ne_nil h), hagain]

/-- The empty line that ends a command file is read outside; a blank line is trimmed to it, with a
length that wraps. -/
theorem empty_line_read_outside : trim ⟨[], by decide⟩ = ⟨.error .outside, true⟩ ∧
    trim ⟨[32], by decide⟩ = ⟨.ok ⟨[], by decide⟩, true⟩ :=
  ⟨trim_of_nil rfl, trim_of_white (by simp) (by simp [isWhite])⟩

/-! ### The command file -/

section

-- `slash::StringSplit` at the colons, which is not part of the repository
variable (stringSplit : Bytes → List Bytes)

/-- `HandleCmd`: what `ProcessParam` is called with, if it is. -/
def handleCmd (cmd : List Bytes) : Option Bytes :=
  match cmd with
  | [] => none
  | name :: args =>
    if name = ascii "reload" then none
    else if name = ascii "list" then some (args.headD (ascii "all"))
    else none

/-- The calls of `ProcessParam` for a line that was trimmed. -/
def lineCalls (line : Bytes) : List Bytes :=
  let cmdExplain := stringSplit line
  if cmdExplain.length = 0 ∨ 2 < cmdExplain.length then [] else (handleCmd cmdExplain).toList

/-- The lines of a file as `getline` reads them until `eof()`.  Behind a newline at the end of the
file there is one more line, the empty one. -/
def Str.lines (file : Str) : List Str :=
  (file.data.splitOn 10).attach.map (fun line =>
    ⟨line.1, (Lines.sublist_of_mem_splitOn line.2).1.length_le.trans_lt file.size_lt⟩)

/-- The loop of `ProcessFileMsg`, and the calls of `ProcessParam` that it makes. -/
def processLines : List Str → Run Fault (List Bytes)
  | [] => pure []
  | line :: lines => do
    let line ← trim line
    let calls ← processLines lines
    pure (lineCalls stringSplit line.data ++ calls)

/-- `ProcessFileMsg`. -/
def processFileMsg (file : Str) : Run Fault (List Bytes) := processLines stringSplit file.lines

theorem Str.lines_data (file : Str) : file.lines.map Str.data = file.data.splitOn 10 := by
  rw [Str.lines, List.map_map]
  exact List.attach_map_subtype_val _

theorem processLines_result (lines : List Str) :
    (processLines stringSplit lines).result =
      if [] ∈ lines.map Str.data then .error .outside
      else .ok ((lines.map Str.data).flatMap (fun line => lineCalls stringSplit (Trim.trim isWhite line))) := by
  induction lines with
  | nil => rfl
  | cons line lines ih =>
    have hline := trim_result line
    rw [processLines, List.map_cons, List.flatMap_cons]
    by_cases hnil : line.data = []
    · rw [if_pos hnil] at hline
      rw [bind_result_error hline, if_pos (List.mem_cons.mpr (Or.inl hnil.symm))]
    · rw [if_neg hnil] at hline
      rw [bind_result_ok hline]
      split at ih
      · next hmem => rw [bind_result_error ih, if_pos (List.mem_cons_of_mem _ hmem)]
      · next hmem =>
        rw [bind_result_ok ih, if_neg (fun h => (List.mem_cons.mp h).elim (fun h0 => hnil h0.symm) hmem)]
        rfl

/-- **The command file is handled line by line exactly if none of its lines is empty.** -/
theorem processFileMsg_result (file : Str) :
    (processFileMsg stringSplit file).result =
      if [] ∈ file.data.splitOn 10 then .error .outside
      else .ok ((file.data.splitOn 10).flatMap (fun line => lineCalls stringSplit (Trim.trim isWhite line))) := by
  rw [processFileMsg, processLines_result, Str.lines_data]

/-- **A file that ends with a newline is never handled to its end.** -/
theorem processFileMsg_newline (file : Str) (text : Bytes) (h : file.data = text ++ [10]) :
    (processFileMsg stringSplit file).result = .error .outside := by
  have hlast : [] ∈ file.data.splitOn 10 := by
    rw [h, List.splitOn_append_cons_self, List.splitOn_nil]
    exact List.mem_append_right _ (List.mem_singleton_self [])
  rw [processFileMsg_result, if_pos hlast]

end

end QConf.Process
