import QConf.Base.Common
import QConf.Lib.Lines
import QConf.Lib.Trim

/-!
# The configuration of the agent

`load_conf_` reads a file line by line with `fgets`.  It skips empty lines and comments, takes the
last character off a line, cuts it at the first `=`, trims both sides, and enters them in one of
two maps, where the first entry of a key stays.

The character that is taken off is the newline, but for a last line that has none: there it
belongs to the value.  The text is read as its lines say exactly where this does no harm
(`load_conf_reads_lines_iff`): the last line has a newline or assigns nothing, or it ends with a
blank, or a line before it has assigned the same key.
-/

namespace QConf.Config

open Trim Lines

/-! ### The parser -/

/-- `QCONF_LINE_MAX_LEN`. -/
def lineMaxLen : Nat := 1024

/-- `zookeeper.` -/
def zookeeperDot : Bytes := [122, 111, 111, 107, 101, 101, 112, 101, 114, 46]

/-- `_agent_conf_map` and `_idc_conf_map`. -/
structure Conf where
  agentConfMap : BytesMap
  idcConfMap : BytesMap

def Conf.empty : Conf := ⟨∅, ∅⟩

/-- `strtrim`; `none` if a pointer leaves the string. -/
def strtrim (cnt : Bytes) : Option Bytes :=
  if cnt = [] then some cnt
  else
    match pointers cnt 0 32 with
    | none => none
    | some (b, e) => some (if e < b then [] else (cnt.drop b.toNat).take (e + 1 - b).toNat)

/-- `[0-9]{1,n}`. -/
def isNumber (n : Nat) (s : Bytes) : Bool := 1 ≤ s.length && s.length ≤ n && s.all (fun b => 48 ≤ b && b ≤ 57)

/-- `is_ip_port`: the match with `^([0-9]{1,3}\.){3}([0-9]{1,3}){1}:[0-9]{1,5}$`. -/
def isIpPort (item : Bytes) : Ret :=
  if item = [] then .errParam
  else
    match (cStr item).splitOn 58 with
    | [ip, port] =>
      if (ip.splitOn 46).length = 4 && (ip.splitOn 46).all (isNumber 3) && isNumber 5 port then .ok else .errOther
    | _ => .errOther

section

-- `get_first_host_by_name`: the address that the name of a host resolves to
variable (hosts : Bytes → Option Bytes)

/-- `is_domain_port`. -/
def isDomainPort (item : Bytes) : Ret :=
  if item = [] then .errParam
  else
    match item.findIdx? (· == 58) with
    | none => .errOther
    | some spos =>
      match hosts (cStr (item.take spos)) with
      | none => .errOther
      | some ipAddress => if isIpPort (ipAddress ++ item.drop spos) ≠ .ok then .errOther else .ok

/-- `is_valid_idc`. -/
def isValidIdc (idc value : Bytes) : Ret :=
  if idc = [] ∨ value = [] then .errParam
  else if (getlines 44 [] value).any (fun a => isDomainPort hosts a ≠ .ok && isIpPort a ≠ .ok) then .errInvalidIp
  else .ok

/-- `is_valid_conf`. -/
def isValidConf (key value : Bytes) : Ret := if key = [] ∨ value = [] then .errParam else .ok

/-- `map::insert`, which leaves an entry that is there. -/
def insertNew (m : BytesMap) (key value : Bytes) : BytesMap := if key ∈ m then m else m.insert key value

/-- A key and its value, trimmed. -/
def Conf.enter (c : Conf) (key value : Bytes) : Conf :=
  if zookeeperDot.isPrefixOf key then
    let idc := key.drop (key.idxOf 46 + 1)
    if isValidIdc hosts idc value ≠ .ok then c else { c with idcConfMap := insertNew c.idcConfMap idc value }
  else if isValidConf key value ≠ .ok then c
  else { c with agentConfMap := insertNew c.agentConfMap key value }

/-- What the loop of `load_conf_` does with a line. -/
def loadLine (c : Conf) (buf : Bytes) : Option Conf :=
  let line := cStr buf
  -- empty line or comment line
  if line = [] ∨ line.head? = some 35 ∨ line.head? = some 10 then some c
  else
    -- remove the LF at the end of line
    let line := line.dropLast
    match line.findIdx? (· == 61) with
    | none => some c
    | some delimiter =>
      match strtrim (line.take delimiter), strtrim (line.drop (delimiter + 1)) with
      | some key, some value => some (c.enter hosts key value)
      | _, _ => none

/-- `load_conf_`, over the files that can be opened. -/
def loadConf (files : Bytes → Option Bytes) (confPath : Bytes) (c : Conf) : Option (Ret × Conf) :=
  if confPath = [] then some (.errParam, c)
  else
    match files (cStr confPath) with
    | none => some (.errOpen, c)
    | some text =>
      (forLines 10 (lineMaxLen - 1) (fun c line => c.bind (loadLine hosts · line)) text.length text (some c)).map
        (fun c => (.ok, c))

end

/-- `get_agent_conf`. -/
def getAgentConf (c : Conf) (key : Bytes) : Except Ret Bytes :=
  if key = [] then .error .errParam
  else
    match c.agentConfMap.lookup key with
    | none => .error .errNotFound
    | some value => .ok value

/-! ### What the text says -/

/-- The trimmed sides of the first `=`. -/
def sides (l : Bytes) : Option (Bytes × Bytes) :=
  if 61 ∈ l then some (trim (· == 32) (l.takeWhile (· != 61)), trim (· == 32) (l.dropWhile (· != 61)).tail) else none

/-- What a line assigns; a comment assigns nothing. -/
def assignment (l : Bytes) : Option (Bytes × Bytes) := if l.head? = some 35 then none else sides l

/-- The value that an assignment has for `k`. -/
def valueFor (k : Bytes) : Option (Bytes × Bytes) → Option Bytes
  | none => none
  | some (key, value) => if key = k ∧ value ≠ [] then some value else none

/-- The value of `k` in a text: that of the first line which assigns one. -/
def textValue (text k : Bytes) : Option Bytes := (text.splitOn 10).findSome? (fun l => valueFor k (assignment l))

/-- The last line of the text can lose its last character. -/
def LastLineHarmless (text : Bytes) : Prop :=
  ∀ l key value, (text.splitOn 10).getLast? = some l → assignment l = some (key, value) →
    key = [] ∨ zookeeperDot <+: key ∨ value = [] ∨ l.getLast? = some 32 ∨
    ∃ l' ∈ (text.splitOn 10).dropLast, (valueFor key (assignment l')).isSome = true

/-! ### Lines -/

theorem strtrim_eq (cnt : Bytes) : strtrim cnt = some (trim (· == 32) cnt) := by
  rw [strtrim]
  split
  · next h0 =>
    rw [h0]
    rfl
  · next hne =>
    obtain ⟨b, e, hpointers, hcross, hbetween⟩ := pointers_spec (l := cnt) (d := 32) hne (show (0 : UInt8) ≠ 32 by decide)
    rw [hpointers]
    dsimp only
    split
    · next h => rw [hcross.mp h]
    · next h => rw [hbetween (Int.not_lt.mp h)]

/-- The sides of the first `=`. -/
theorem sides_append {a b : Bytes} (h : 61 ∉ a) :
    sides (a ++ 61 :: b) = some (trim (· == 32) a, trim (· == 32) b) := by
  have hne : ∀ x ∈ a, (x != 61) = true := fun x hx => bne_iff_ne.mpr (fun h0 => h (h0 ▸ hx))
  rw [sides, if_pos (by simp), List.takeWhile_append_of_pos hne, List.dropWhile_append_of_pos hne,
    List.takeWhile_cons_of_neg (by decide), List.dropWhile_cons_of_neg (by decide), List.append_nil]
  rfl

variable {hosts : Bytes → Option Bytes}

/-- An assignment entered in the maps. -/
def Conf.assign (hosts : Bytes → Option Bytes) (c : Conf) : Option (Bytes × Bytes) → Conf
  | none => c
  | some (key, value) => c.enter hosts key value

/-- What the loop does with a line that `fgets` has read. -/
theorem loadLine_eq (c : Conf) {raw : Bytes} (hnul : NulFree raw) (hne : raw ≠ []) : loadLine hosts c raw =
    some (c.assign hosts (if raw.head? = some 35 ∨ raw.head? = some 10 then none else sides raw.dropLast)) := by
  rw [loadLine, cStr_of_nulFree hnul]
  dsimp only
  by_cases hskip : raw.head? = some 35 ∨ raw.head? = some 10
  · rw [if_pos (Or.inr hskip), if_pos hskip]
    rfl
  rw [if_neg (by simp only [hne, hskip, or_self, not_false_eq_true]), if_neg hskip]
  generalize raw.dropLast = l
  by_cases hmem : 61 ∈ l
  · obtain ⟨a, b, rfl, ha⟩ := List.eq_append_cons_of_mem hmem
    rw [Lines.findIdx?_line ha, sides_append ha]
    dsimp only
    rw [strtrim_eq, strtrim_eq, List.take_left, List.drop_append, List.drop_eq_nil_of_le (Nat.le_succ _),
      Nat.add_sub_cancel_left]
    rfl
  · rw [Lines.findIdx?_of_notMem hmem, sides, if_neg hmem]
    rfl

/-- A line with its newline is read as it is. -/
theorem loadLine_line (c : Conf) {l : Bytes} (hnul : NulFree l) (hl : 10 ∉ l) :
    loadLine hosts c (l ++ [10]) = some (c.assign hosts (assignment l)) := by
  have hnul' : NulFree (l ++ [10]) := by
    rw [NulFree, List.mem_append, not_or]
    exact ⟨hnul, by decide⟩
  rw [loadLine_eq c hnul' (by simp), List.dropLast_concat]
  cases l with
  | nil => rfl
  | cons x l =>
    have hx : x ≠ 10 := fun h => hl (h ▸ List.mem_cons_self)
    rw [assignment]
    simp [hx]

/-- A last line without a newline is read without its last character. -/
theorem loadLine_last (c : Conf) {l : Bytes} (hnul : NulFree l) (hl : 10 ∉ l) (hne : l ≠ []) :
    loadLine hosts c l = some (c.assign hosts (if l.head? = some 35 then none else sides l.dropLast)) := by
  rw [loadLine_eq c hnul hne]
  have hhead : l.head? ≠ some 10 := fun h => hl (List.mem_of_head? h)
  simp [hhead]

theorem lookup_insertNew (m : BytesMap) (key value k : Bytes) :
    (insertNew m key value).lookup k = (m.lookup k).or (if key = k then some value else none) := by
  rw [insertNew]
  by_cases hk : key = k
  · subst hk
    rw [if_pos rfl]
    split
    · next hmem =>
      obtain ⟨v, hv⟩ := Finmap.mem_iff.mp hmem
      rw [hv]
      rfl
    · next hmem => rw [Finmap.lookup_insert, Finmap.lookup_eq_none.mpr hmem, Option.none_or]
  · rw [if_neg hk, Option.or_none]
    split
    · rfl
    · rw [Finmap.lookup_insert_of_ne _ (Ne.symm hk)]

/-- A key of the agent that has no value yet gets the one that is assigned. -/
theorem lookup_assign (c : Conf) (kv : Option (Bytes × Bytes)) {k : Bytes} (hk : k ≠ [])
    (hzk : ¬ zookeeperDot <+: k) :
    (c.assign hosts kv).agentConfMap.lookup k = (c.agentConfMap.lookup k).or (valueFor k kv) := by
  match kv with
  | none => exact (Option.or_none).symm
  | some (key, value) =>
    rw [Conf.assign, Conf.enter, valueFor]
    by_cases hkey : zookeeperDot <+: key
    · have hno : ¬ (key = k ∧ value ≠ []) := fun h => hzk (h.1 ▸ hkey)
      rw [if_pos (List.isPrefixOf_iff_prefix.mpr hkey), if_neg hno, Option.or_none]
      dsimp only
      split <;> rfl
    rw [if_neg (fun h => hkey (List.isPrefixOf_iff_prefix.mp h)), isValidConf]
    by_cases hempty : key = [] ∨ value = []
    · have hno : ¬ (key = k ∧ value ≠ []) := fun h => hempty.elim (fun h0 => hk (h.1 ▸ h0)) h.2
      rw [if_pos hempty, if_neg hno, Option.or_none]
      rfl
    · rw [not_or] at hempty
      rw [if_neg (by simp [hempty])]
      simp [lookup_insertNew, hempty.2]

theorem lookup_foldl_assign {k : Bytes} (hk : k ≠ []) (hzk : ¬ zookeeperDot <+: k) :
    ∀ (kvs : List (Option (Bytes × Bytes))) (c : Conf), (kvs.foldl (Conf.assign hosts) c).agentConfMap.lookup k =
      (c.agentConfMap.lookup k).or (kvs.findSome? (valueFor k)) := by
  intro kvs
  induction kvs with
  | nil => exact fun c => (Option.or_none).symm
  | cons kv kvs ih =>
    intro c
    rw [List.foldl_cons, ih, lookup_assign c kv hk hzk, List.findSome?_cons, Option.or_assoc]
    cases valueFor k kv <;> rfl

/-- The lines but the last, one after the other. -/
theorem foldl_loadLine : ∀ (ls : List Bytes) (c : Conf), (∀ l ∈ ls, NulFree l ∧ 10 ∉ l) →
    (ls.map (· ++ [10])).foldl (fun c line => c.bind (loadLine hosts · line)) (some c) =
      some ((ls.map assignment).foldl (Conf.assign hosts) c) := by
  intro ls
  induction ls with
  | nil => exact fun c _ => rfl
  | cons l ls ih =>
    intro c hls
    obtain ⟨hnul, hl⟩ := hls l List.mem_cons_self
    rw [List.map_cons, List.foldl_cons, Option.bind_some, loadLine_line c hnul hl,
      ih _ (fun l' h' => hls l' (List.mem_cons_of_mem _ h'))]
    rfl

/-! ### The last line -/

/-- What is read of the last line, which has no newline. -/
def lastRead (l : Bytes) : Option (Bytes × Bytes) := if l.head? = some 35 then none else sides l.dropLast

theorem lastRead_none {l : Bytes} (h : assignment l = none) : lastRead l = none := by
  rw [assignment] at h
  rw [lastRead]
  split
  · rfl
  · next hcomment =>
    rw [if_neg hcomment, sides] at h
    split at h
    · cases h
    · next hno => exact if_neg (fun hmem => hno (List.mem_of_mem_dropLast hmem))

/-- A line that assigns is cut by its first `=`. -/
theorem assignment_some {l key value : Bytes} (h : assignment l = some (key, value)) : ∃ a b,
    l = a ++ 61 :: b ∧ 61 ∉ a ∧ key = trim (· == 32) a ∧ value = trim (· == 32) b ∧ l.head? ≠ some 35 := by
  rw [assignment] at h
  split at h
  · cases h
  next hcomment =>
  have hmem : 61 ∈ l := by
    by_contra hno
    rw [sides, if_neg hno] at h
    cases h
  obtain ⟨a, b, rfl, ha⟩ := List.eq_append_cons_of_mem hmem
  rw [sides_append ha, Option.some.injEq, Prod.mk.injEq] at h
  exact ⟨a, b, rfl, ha, h.1.symm, h.2.symm, hcomment⟩

/-- A value that is not empty loses its last character, or the blank behind it. -/
theorem lastRead_some {l key value : Bytes} (h : assignment l = some (key, value)) (hvalue : value ≠ []) :
    ∃ value', lastRead l = some (key, value') ∧ (value' = value ↔ l.getLast? = some 32) := by
  obtain ⟨a, b, rfl, ha, rfl, rfl, hcomment⟩ := assignment_some h
  have hb : b ≠ [] := by
    rintro rfl
    exact hvalue rfl
  obtain ⟨x, hx⟩ : ∃ x, b.getLast? = some x := ⟨_, List.getLast?_eq_some_getLast hb⟩
  have hlast : (a ++ 61 :: b).getLast? = some x := by
    rw [List.getLast?_append, List.getLast?_cons, hx]
    rfl
  refine ⟨trim (· == 32) b.dropLast, ?_, ?_⟩
  · rw [lastRead, if_neg hcomment, List.dropLast_append_of_ne_nil (List.cons_ne_nil _ _),
      List.dropLast_cons_of_ne_nil hb, sides_append ha]
  · rw [hlast, Option.some.injEq]
    constructor
    · intro heq
      by_contra hne
      have hlt := length_trim_dropLast_lt (p := (· == 32)) hx (beq_eq_false_iff_ne.mpr hne)
      rw [heq] at hlt
      exact Nat.lt_irrefl _ hlt
    · rintro rfl
      exact trim_dropLast hx rfl

/-- An empty value stays empty. -/
theorem valueFor_lastRead_nil {l key : Bytes} (h : assignment l = some (key, [])) (k : Bytes) :
    valueFor k (lastRead l) = none := by
  obtain ⟨a, b, rfl, ha, rfl, hb, hcomment⟩ := assignment_some h
  have hall := trim_eq_nil_iff.mp hb.symm
  rw [lastRead, if_neg hcomment, List.dropLast_append_of_ne_nil (List.cons_ne_nil _ _)]
  cases b with
  | nil =>
    -- the `=` is taken off
    rw [List.dropLast_singleton, List.append_nil, sides, if_neg ha]
    rfl
  | cons x b =>
    have hnil : trim (· == 32) (x :: b).dropLast = [] :=
      trim_eq_nil_iff.mpr (fun y hy => hall y (List.mem_of_mem_dropLast hy))
    rw [List.dropLast_cons_of_ne_nil (List.cons_ne_nil _ _), sides_append ha, hnil]
    simp [valueFor]

/-! ### The file -/

theorem textValue_eq {text last : Bytes} {ls : List Bytes} (h : text.splitOn 10 = ls ++ [last]) (k : Bytes) :
    textValue text k = (ls.findSome? (fun l => valueFor k (assignment l))).or (valueFor k (assignment last)) := by
  rw [textValue, h, List.findSome?_append, List.findSome?_singleton]

/-- **What `load_conf_` reads**: the lines, and the last one without its last character. -/
theorem loadConf_values (hosts : Bytes → Option Bytes) {files : Bytes → Option Bytes}
    {confPath text last : Bytes} {ls : List Bytes}
    (hpath : confPath ≠ []) (hfile : files (cStr confPath) = some text) (hnul : NulFree text)
    (hlen : ∀ l ∈ text.splitOn 10, l.length < lineMaxLen - 1) (hls : text.splitOn 10 = ls ++ [last]) :
    ∃ c, loadConf hosts files confPath .empty = some (.ok, c) ∧ ∀ k, k ≠ [] → ¬ zookeeperDot <+: k →
      c.agentConfMap.lookup k =
        (ls.findSome? (fun l => valueFor k (assignment l))).or (valueFor k (lastRead last)) := by
  have htext : [10].intercalate (ls ++ [last]) = text := by rw [← hls, List.intercalate_splitOn]
  have hline : ∀ l ∈ ls ++ [last], NulFree l ∧ 10 ∉ l ∧ l.length < lineMaxLen - 1 := fun l hl => by
    have hmem : l ∈ text.splitOn 10 := hls ▸ hl
    exact ⟨fun h0 => hnul ((sublist_of_mem_splitOn hmem).1.subset h0), (sublist_of_mem_splitOn hmem).2, hlen l hmem⟩
  have hinit : ∀ l ∈ ls, NulFree l ∧ 10 ∉ l ∧ l.length < lineMaxLen - 1 := fun l hl =>
    hline l (List.mem_append_left _ hl)
  obtain ⟨hlnul, hlnl, hllen⟩ := hline last (List.mem_append_right _ (List.mem_singleton.mpr rfl))
  have hread := forLines_intercalate (fun c line => c.bind (loadLine hosts · line)) last hlnl
    (Nat.le_of_lt hllen) ls text.length (some Conf.empty) (fun l hl => (hinit l hl).2) (by rw [htext])
  rw [foldl_loadLine ls .empty (fun l hl => ⟨(hinit l hl).1, (hinit l hl).2.1⟩), htext] at hread
  have hload : loadConf hosts files confPath .empty =
      some (.ok, ((ls.map assignment).foldl (Conf.assign hosts) .empty).assign hosts (lastRead last)) := by
    rw [loadConf, if_neg hpath, hfile]
    dsimp only
    rw [hread]
    split
    · next h0 =>
      rw [h0]
      rfl
    · next hne =>
      rw [Option.bind_some, loadLine_last _ hlnul hlnl hne]
      rfl
  refine ⟨_, hload, fun k hk hzk => ?_⟩
  rw [lookup_assign _ _ hk hzk, lookup_foldl_assign hk hzk, List.findSome?_map]
  rfl

theorem getAgentConf_eq_iff (c : Conf) {k : Bytes} (hk : k ≠ []) (o : Option Bytes) :
    (getAgentConf c k =
      match o with
      | some value => .ok value
      | none => .error .errNotFound) ↔ c.agentConfMap.lookup k = o := by
  rw [getAgentConf, if_neg hk]
  cases c.agentConfMap.lookup k <;> cases o <;> simp

/-- **The configuration is what its lines say, exactly where the last line can lose its last character.** -/
theorem load_conf_reads_lines_iff (hosts files : Bytes → Option Bytes) (confPath text : Bytes) (hpath : confPath ≠ [])
    (hfile : files (cStr confPath) = some text) (hnul : NulFree text)
    (hlen : ∀ l ∈ text.splitOn 10, l.length < lineMaxLen - 1) :
    (∃ c, loadConf hosts files confPath .empty = some (.ok, c) ∧ ∀ k, k ≠ [] → ¬ zookeeperDot <+: k →
      getAgentConf c k =
        match textValue text k with
        | some value => .ok value
        | none => .error .errNotFound) ↔ LastLineHarmless text := by
  obtain ⟨ls, last, hls⟩ := (List.eq_nil_or_concat' (text.splitOn 10)).resolve_left (List.splitOn_ne_nil 10 text)
  obtain ⟨c, hload, hvalue⟩ := loadConf_values hosts hpath hfile hnul hlen hls
  have hconf : (∃ c, loadConf hosts files confPath .empty = some (.ok, c) ∧ ∀ k, k ≠ [] → ¬ zookeeperDot <+: k →
      getAgentConf c k =
        match textValue text k with
        | some value => .ok value
        | none => .error .errNotFound) ↔ ∀ k, k ≠ [] → ¬ zookeeperDot <+: k →
      (ls.findSome? (fun l => valueFor k (assignment l))).or (valueFor k (lastRead last)) =
        (ls.findSome? (fun l => valueFor k (assignment l))).or (valueFor k (assignment last)) := by
    constructor
    · rintro ⟨c', hload', h⟩ k hk hzk
      obtain rfl : c = c' := by
        rw [hload, Option.some.injEq, Prod.mk.injEq] at hload'
        exact hload'.2
      rw [← hvalue k hk hzk, ← textValue_eq hls]
      exact (getAgentConf_eq_iff c hk _).mp (h k hk hzk)
    · intro h
      refine ⟨c, hload, fun k hk hzk => (getAgentConf_eq_iff c hk _).mpr ?_⟩
      rw [hvalue k hk hzk, textValue_eq hls]
      exact h k hk hzk
  have hlast : (text.splitOn 10).getLast? = some last := by rw [hls, List.getLast?_concat]
  have hinit : (text.splitOn 10).dropLast = ls := by rw [hls, List.dropLast_concat]
  rw [hconf, LastLineHarmless, hinit]
  constructor
  · intro h l key value hl hassign
    obtain rfl : last = l := Option.some.inj (hlast.symm.trans hl)
    by_cases hkey : key = []
    · exact .inl hkey
    by_cases hzk : zookeeperDot <+: key
    · exact .inr (.inl hzk)
    by_cases hempty : value = []
    · exact .inr (.inr (.inl hempty))
    refine .inr (.inr (.inr ?_))
    obtain ⟨value', hread, hblank⟩ := lastRead_some hassign hempty
    have hkeys := h key hkey hzk
    cases hfound : ls.findSome? (fun l => valueFor key (assignment l)) with
    | some v =>
      obtain ⟨l', hl', hv⟩ := List.exists_of_findSome?_eq_some hfound
      exact .inr ⟨l', hl', by rw [hv]; rfl⟩
    | none =>
      refine .inl (hblank.mp ?_)
      have hfull : valueFor key (some (key, value)) = some value := if_pos ⟨rfl, hempty⟩
      rw [hfound, hread, hassign, Option.none_or, Option.none_or, hfull, valueFor] at hkeys
      split at hkeys
      · exact Option.some.inj hkeys
      · cases hkeys
  · intro h k hk hzk
    cases hassign : assignment last with
    | none => rw [lastRead_none hassign]
    | some kv =>
      obtain ⟨key, value⟩ := kv
      by_cases hempty : value = []
      · subst hempty
        rw [valueFor_lastRead_nil hassign k]
        simp [valueFor]
      obtain ⟨value', hread, hblank⟩ := lastRead_some hassign hempty
      rw [hread]
      by_cases hkey : key = k
      · subst hkey
        rcases h last key value hlast hassign with h0 | h0 | h0 | h0 | ⟨l', hl', hv⟩
        · exact absurd h0 hk
        · exact absurd h0 hzk
        · exact absurd h0 hempty
        · rw [hblank.mpr h0]
        · have hsome : (ls.findSome? (fun l => valueFor key (assignment l))).isSome = true :=
            List.findSome?_isSome_iff.mpr ⟨l', hl', hv⟩
          obtain ⟨v, hfound⟩ := Option.isSome_iff_exists.mp hsome
          rw [hfound]
          rfl
      · rw [valueFor, valueFor, if_neg (fun h0 => hkey h0.1), if_neg (fun h0 => hkey h0.1)]

/-- Five lines, of which the last has no newline and gives a key that was given before. -/
def confText : Bytes := ascii "# agent\nlocal_idc = test\n\ndaemon_mode=1\ndaemon_mode=0"

/-- The lines are read: the blanks around a value are not part of it, and the first value of a key
is kept. -/
theorem load_conf_first_values : ∃ c,
    loadConf (fun _ => none) (fun _ => some confText) [99] .empty = some (.ok, c) ∧
    getAgentConf c (ascii "local_idc") = .ok (ascii "test") ∧
    getAgentConf c (ascii "daemon_mode") = .ok (ascii "1") ∧
    getAgentConf c (ascii "log_level") = .error .errNotFound := by
  have hharmless : LastLineHarmless confText := by
    intro l key value hl hassign
    have hlast : (confText.splitOn 10).getLast? = some (ascii "daemon_mode=0") := by decide +kernel
    obtain rfl : ascii "daemon_mode=0" = l := Option.some.inj (hlast.symm.trans hl)
    have hkey : assignment (ascii "daemon_mode=0") = some (ascii "daemon_mode", ascii "0") := by decide +kernel
    rw [hkey, Option.some.injEq, Prod.mk.injEq] at hassign
    rw [← hassign.1]
    exact .inr (.inr (.inr (.inr (by decide +kernel))))
  obtain ⟨c, hload, hvalue⟩ := (load_conf_reads_lines_iff (fun _ => none) (fun _ => some confText) [99] confText
    (by decide) rfl (by decide +kernel) (by decide +kernel)).mpr hharmless
  have hread : ∀ k v, k ≠ [] ∧ ¬ zookeeperDot <+: k ∧ textValue confText k = v →
      getAgentConf c k =
        match v with
        | some value => .ok value
        | none => .error .errNotFound := by
    rintro k _ ⟨hk, hzk, rfl⟩
    exact hvalue k hk hzk
  exact ⟨c, hload, hread _ (some (ascii "test")) (by decide +kernel), hread _ (some (ascii "1")) (by decide +kernel),
    hread _ none (by decide +kernel)⟩

/-- **A file without a newline at its end**: of the line `a=12` the agent reads `1`. -/
theorem last_line_cut :
    ((loadConf (fun _ => none) (fun _ => some [97, 61, 49, 50]) [99] .empty).map
      (fun r => getAgentConf r.2 [97])) = some (.ok [49]) ∧
    textValue [97, 61, 49, 50] [97] = some [49, 50] := by
  constructor <;> decide +kernel

end QConf.Config
