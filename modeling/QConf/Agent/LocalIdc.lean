import QConf.Base.Shm.Set

/-!
# The local idc stays readable

The agent stores the idc of its host under the key `a` of the table, beside the
data.  The recency list never has this key, so no eviction takes it, and sets and
removes of other keys leave it alone.  The commands of `qconf_cmd.cc`, which an
operator leaves in files, do nothing to the table, except `clear-all`: it clears
the whole table, and nothing writes the local idc back.

The lines of a command file are given as `getline` returns them.
-/

namespace QConf.Agent

open Shm Qhasharr ByteCodec Transition

/-! ### The commands of `qconf_cmd.cc` -/

/-- The commands and their number of parameters, the command itself included. -/
def commandTable : List (Bytes × Nat) :=
  [(ascii "stop_listen", 2), (ascii "restart_listen", 2), (ascii "list-all", 1),
    (ascii "clear-all", 1), (ascii "ls", 3), (ascii "delete", 3), (ascii "get", 3),
    (ascii "create", 4), (ascii "set", 4), (ascii "serve_add", 4), (ascii "serve_delete", 4)]

/-- `_cmd_delim`, the character `#`. -/
def cmdDelim : UInt8 := 35

/-- The items of a command line that are not empty. -/
def parametersOf (line : Bytes) : List Bytes := (line.splitOn cmdDelim).filter (· ≠ [])

/-- What the agent keeps on its host: the store, its own copy of the local idc, the
dump file, and the result files with what was appended to them. -/
structure Host where
  store : Store
  localIdc : Bytes
  dump : BytesMap
  results : List (Bytes × Bytes)

/-- `operate_clear_all`: the result text. -/
def operateClearAll (h : Host) : Bytes × Host :=
  (ascii "clear share memory success!",
    { h with store := (hashTblClear h.store).2, dump := ∅ })

/-- The dispatch of `single_command_process`: the return code, the result and the
host.  All commands but one are stubs that return `QCONF_OK`. -/
def dispatch (h : Host) (parameters : List Bytes) : Ret × Bytes × Host :=
  match parameters with
  | [] => (.errCmd, [], h)
  | command :: _ =>
    match commandTable.lookup command with
    | none => (.errCmd, [], h)
    | some count =>
      if parameters.length ≠ count then (.errCmd, [], h)
      else if command = ascii "clear-all" then (.ok, operateClearAll h)
      else (.ok, [], h)

/-- `single_command_process`; `writable` says whether the result file can be opened. -/
def singleCommandProcess (writable : Bool) (h : Host) (line customId : Bytes) : Ret × Host :=
  if customId = [] ∨ line = [] then (.errParam, h)
  else
    match dispatch h (parametersOf line) with
    | (.ok, result, h) =>
      if result = [] then (.ok, h)
      else if writable then (.ok, { h with results := h.results ++ [(customId, result)] })
      else (.errOpen, h)
    | (ret, _, h) => (ret, h)

/-- A file of the command directory; `none` where it cannot be read. -/
structure CmdFile where
  name : Bytes
  lines : Option (List Bytes)

/-- `file_name.find_first_of(_cmd_pre) == 0`: the name starts with one of the
characters of `cmd`. -/
def isCmdFile (name : Bytes) : Bool :=
  match name with
  | [] => false
  | c :: _ => (ascii "cmd").contains c

/-- The loop of `qconf_cmd_proc` over one file.  The id is the name from its fourth
character on; for a shorter name `std::string` throws (`none`). -/
def cmdFileProc (writable : Bool) (h : Host) (file : CmdFile) : Option Host :=
  if isCmdFile file.name then
    match file.lines with
    | none => some h
    | some lines =>
      if file.name.length < 3 then none
      else
        some (lines.foldl
          (fun h line => (singleCommandProcess writable h line (file.name.drop 3)).2) h)
  else some h

/-- `qconf_cmd_proc`: the number of command files and the host. -/
def qconfCmdProc (writable : Bool) (h : Host) (files : List CmdFile) : Option (Nat × Host) :=
  (files.foldlM (cmdFileProc writable) h).map
    (fun h => ((files.filter (fun f => isCmdFile f.name)).length, h))

/-! ### Which commands clear the table -/

/-- The line is a `clear-all` that is carried out. -/
def Clears (line customId : Bytes) : Prop :=
  customId ≠ [] ∧ parametersOf line = [ascii "clear-all"]

instance (line customId : Bytes) : Decidable (Clears line customId) :=
  inferInstanceAs (Decidable (_ ∧ _))

/-- The file has a `clear-all` that is carried out. -/
def CmdFile.Clears (file : CmdFile) : Prop :=
  isCmdFile file.name ∧ ∃ line ∈ file.lines.getD [], Agent.Clears line (file.name.drop 3)

instance (file : CmdFile) : Decidable file.Clears := inferInstanceAs (Decidable (_ ∧ _))

theorem dispatch_clear (h : Host) :
    dispatch h [ascii "clear-all"] = (.ok, operateClearAll h) := by
  rw [dispatch]
  rfl

/-- Only `clear-all` with no parameter reaches the table. -/
theorem dispatch_other {parameters : List Bytes} (hp : parameters ≠ [ascii "clear-all"]) (h : Host) :
    (dispatch h parameters).2.2 = h := by
  unfold dispatch
  split
  · rfl
  · next command rest =>
    split
    · rfl
    · next count hcount =>
      split
      · rfl
      · next hlen =>
        split
        · next hclear =>
          -- the table asks for one parameter, so the rest is empty
          subst hclear
          have hone : count = 1 := (Option.some.inj hcount).symm
          rw [not_not, List.length_cons, hone] at hlen
          have hrest : rest = [] := List.length_eq_zero_iff.mp (by omega)
          exact absurd (by rw [hrest]) hp
        · rfl

theorem parametersOf_nil : parametersOf [] = [] := by decide

/-- **One command**: the store is cleared by `clear-all` and left alone by the others. -/
theorem singleCommandProcess_store (writable : Bool) (h : Host) (line customId : Bytes) :
    (singleCommandProcess writable h line customId).2.store =
      if Clears line customId then (hashTblClear h.store).2 else h.store := by
  unfold singleCommandProcess
  by_cases hskip : customId = [] ∨ line = []
  · rw [if_pos hskip, if_neg]
    rintro ⟨hid, hline⟩
    rw [hskip.resolve_left hid, parametersOf_nil] at hline
    exact absurd hline (by simp)
  rw [if_neg hskip]
  push Not at hskip
  by_cases hclear : parametersOf line = [ascii "clear-all"]
  · rw [if_pos ⟨hskip.1, hclear⟩, hclear, dispatch_clear]
    cases writable <;> rfl
  · rw [if_neg (fun hc => hclear hc.2)]
    have hsame := dispatch_other hclear h
    generalize dispatch h (parametersOf line) = d at hsame ⊢
    obtain ⟨ret, result, h'⟩ := d
    dsimp only at hsame
    subst hsame
    cases ret <;> try rfl
    dsimp only
    split
    · rfl
    · split <;> rfl

/-- Clearing twice is clearing once. -/
theorem hashTblClear_twice (s : Store) : (hashTblClear (hashTblClear s).2).2 = (hashTblClear s).2 := by
  have hidem : qhasharrClear (qhasharrClear s.tbl) = qhasharrClear s.tbl := by
    unfold qhasharrClear
    by_cases h0 : s.tbl.usedslots = 0
    · rw [if_pos h0, if_pos h0]
    · rw [if_neg h0, if_pos rfl]
  simp only [hashTblClear, hidem]

/-- **A step of a fold that clears the store or leaves it alone**, over a whole list. -/
theorem foldlM_store {α : Type} {f : Host → α → Option Host} {C : α → Prop} [DecidablePred C]
    (hf : ∀ h a h', f h a = some h' →
      h'.store = if C a then (hashTblClear h.store).2 else h.store) :
    ∀ (as : List α) (h h' : Host), as.foldlM f h = some h' →
      h'.store = if ∃ a ∈ as, C a then (hashTblClear h.store).2 else h.store := by
  intro as
  induction as with
  | nil =>
    intro h h' hr
    obtain rfl := Option.some.inj hr
    simp
  | cons a as ih =>
    intro h h' hr
    rw [List.foldlM_cons] at hr
    obtain ⟨h₁, h1, hr⟩ := Option.bind_eq_some_iff.mp hr
    rw [ih h₁ h' hr, hf h a h₁ h1]
    by_cases ha : C a
    · simp only [ha, if_true, hashTblClear_twice, ite_self]
      rw [if_pos ⟨a, List.mem_cons_self .., ha⟩]
    · simp [ha]

theorem cmdFileProc_store (writable : Bool) (h : Host) (file : CmdFile) (h' : Host)
    (hr : cmdFileProc writable h file = some h') :
    h'.store = if file.Clears then (hashTblClear h.store).2 else h.store := by
  unfold cmdFileProc at hr
  split at hr
  case isFalse hname =>
    obtain rfl := Option.some.inj hr
    rw [if_neg (fun hc => hname hc.1)]
  case isTrue hname =>
    split at hr
    · next hlines =>
      obtain rfl := Option.some.inj hr
      rw [if_neg]
      rintro ⟨-, line, hline, -⟩
      rw [hlines] at hline
      exact absurd hline (by simp)
    · next lines hlines =>
      split at hr
      · exact absurd hr (by simp)
      have hfold : lines.foldlM (fun h line =>
          some (singleCommandProcess writable h line (file.name.drop 3)).2) h = some h' := by
        rw [← hr]
        exact List.foldlM_pure (m := Option)
      rw [foldlM_store (C := fun line => Clears line (file.name.drop 3)) ?_ lines h h' hfold]
      · refine if_congr ?_ rfl rfl
        rw [CmdFile.Clears, hlines]
        simp [hname]
      · intro h line h' hr
        rw [← Option.some.inj hr]
        exact singleCommandProcess_store writable h line _

/-- **The command files**: a `clear-all` clears the store, nothing else touches it. -/
theorem qconfCmdProc_store {writable : Bool} {h h' : Host} {files : List CmdFile} {count : Nat}
    (hr : qconfCmdProc writable h files = some (count, h')) :
    h'.store = if ∃ f ∈ files, f.Clears then (hashTblClear h.store).2 else h.store := by
  unfold qconfCmdProc at hr
  obtain ⟨h₁, h1, hr⟩ := Option.map_eq_some_iff.mp hr
  obtain ⟨-, rfl⟩ := Prod.mk.inj hr
  exact foldlM_store (cmdFileProc_store writable) files h h₁ h1

/-! ### The runs -/

section

variable (md5 : Bytes → Bytes) (hashFn : Bytes → Nat)

/-- `qconf_init_local_idc`. -/
def qconfInitLocalIdc (h : Host) (idc : Bytes) : Option (Ret × Host) :=
  (qconfUpdateLocalidc md5 hashFn h.store idc).map
    (fun r => (r.1, { h with store := r.2, localIdc := idc }))

/-- What happens to the table once the local idc is set. -/
inductive HostEvent
  | set (key val : Bytes)
  | remove (key : Bytes)
  | commands (writable : Bool) (files : List CmdFile)

/-- One event, started with some `errno`. -/
def hostStep (h : Host) (a : HostEvent × Option Errno) : Option Host :=
  match a.1 with
  | .set key val =>
    (hashTblSet md5 hashFn { h.store with errno := a.2 } key val).map
      (fun r => { h with store := r.2 })
  | .remove key =>
    some { h with store := (hashTblRemove md5 hashFn { h.store with errno := a.2 } key).2 }
  | .commands writable files => (qconfCmdProc writable h files).map Prod.snd

/-- Sets and removes of keys other than `a`, of at most 65535 bytes, with at most
32767 keys in one bucket; any command files. -/
def HostAdmitted (h : Host) (a : HostEvent × Option Errno) : Prop :=
  match a.1 with
  | .set key _ => key ≠ localIdcKey ∧ key.length < 65536 ∧ BucketRoom md5 hashFn h.store.tbl key
  | .remove key => key ≠ localIdcKey ∧ key.length < 65536
  | .commands _ _ => True

instance (h : Host) (a : HostEvent × Option Errno) : Decidable (HostAdmitted md5 hashFn h a) :=
  match a with
  | (.set key _, _) => inferInstanceAs (Decidable (key ≠ localIdcKey ∧ key.length < 65536 ∧
      BucketRoom md5 hashFn h.store.tbl key))
  | (.remove key, _) => inferInstanceAs (Decidable (key ≠ localIdcKey ∧ key.length < 65536))
  | (.commands _ _, _) => inferInstanceAs (Decidable True)

/-- No command file has a `clear-all` that is carried out. -/
def HostEvent.NoClear : HostEvent → Prop
  | .set _ _ => True
  | .remove _ => True
  | .commands _ files => ¬ ∃ f ∈ files, f.Clears

instance (ev : HostEvent) : Decidable ev.NoClear :=
  match ev with
  | .set _ _ => inferInstanceAs (Decidable True)
  | .remove _ => inferInstanceAs (Decidable True)
  | .commands _ files => inferInstanceAs (Decidable (¬ ∃ f ∈ files, f.Clears))

end

section

variable {md5 : Bytes → Bytes} {hashFn : Bytes → Nat} {n : Nat} {s s' : Store} {h h' : Host}
  {x key val : Bytes}

/-- The store is in order and has the local idc `x`. -/
def HasIdc (md5 : Bytes → Bytes) (hashFn : Bytes → Nat) (n : Nat) (x : Bytes) (s : Store) : Prop :=
  ∃ m, Holds md5 hashFn n s m ∧ ∃ w, m.lookup localIdcKey = some w ∧
    qconfVerify md5 w = (.ok, localidcToTblval localIdcKey x)

theorem tblvalToLocalidc_localidcToTblval (hx : x.length < 256) :
    tblvalToLocalidc (localidcToTblval localIdcKey x) = (.ok, x) := by
  have hread := readField_append (w := idcSizeLen) hx [] localIdcKey
  rw [List.nil_append, List.length_nil, Nat.zero_add] at hread
  have hpos : (field idcSizeLen x ++ localIdcKey)[idcSizeLen + x.length]? = some dataTypeLocalIdc := by
    rw [List.getElem?_append_right (by rw [field_length]), field_length, Nat.sub_self]
    rfl
  change tblvalToLocalidc (field idcSizeLen x ++ localIdcKey) = _
  rw [tblvalToLocalidc, qconfSubIdc, hread]
  dsimp only
  rw [if_pos hpos]

theorem HasIdc.get (h : HasIdc md5 hashFn n x s) (hn : 0 < n) (hx : x.length < 256) :
    qconfGetLocalidc md5 hashFn s.tbl = (.ok, x) := by
  obtain ⟨m, hholds, w, hw, hverify⟩ := h
  have hget : hashTblGet md5 hashFn s.tbl (tblkeyOf dataTypeLocalIdc [] []) = (.ok, localidcToTblval localIdcKey x) := by
    change hashTblGet md5 hashFn s.tbl localIdcKey = _
    rw [hholds.sees.hashTblGet_eq hn (by decide) (by decide), seenAs_localIdcKey, hw]
    exact hverify
  rw [qconfGetLocalidc, hget]
  exact tblvalToLocalidc_localidcToTblval hx

/-- **A set of another key keeps the local idc**, whatever it evicts and returns. -/
theorem HasIdc.set (h : HasIdc md5 hashFn n x s) (hn : 0 < n) (hloc : key ≠ localIdcKey)
    (hkey : key.length < 65536) (hb : BucketRoom md5 hashFn s.tbl key) {ret : Ret}
    (hr : hashTblSet md5 hashFn s key val = some (ret, s')) : HasIdc md5 hashFn n x s' := by
  obtain ⟨m, hholds, w, hw, hverify⟩ := h
  have hother : localIdcKey ≠ seenAs md5 hashFn n key := fun heq =>
    hloc ((seenAs_eq_short (by decide)).mp heq.symm)
  by_cases hne : key = []
  · rw [hashTblSet, if_pos hne] at hr
    obtain ⟨-, rfl⟩ := Prod.mk.inj (Option.some.inj hr)
    exact ⟨m, hholds, w, hw, hverify⟩
  by_cases hsame : hashTblGet md5 hashFn s.tbl key = (.ok, val)
  · rw [hashTblSet, if_neg hne, if_pos hsame] at hr
    obtain ⟨-, rfl⟩ := Prod.mk.inj (Option.some.inj hr)
    exact ⟨m, hholds, w, hw, hverify⟩
  obtain ⟨r, hr', hend⟩ := hashTblSet_end hholds hn hne hkey hb hsame
  rw [hr'] at hr
  obtain rfl := Option.some.inj hr
  cases hend with
  | stored i le fits least holds =>
    refine ⟨_, holds, w, ?_, hverify⟩
    rw [Finmap.lookup_insert_of_ne _ hother, hholds.lookup_evict_localIdc, hw]
  | failed never holds =>
    refine ⟨_, holds, w, ?_, hverify⟩
    unfold afterFail
    split
    · rw [Finmap.lookup_erase_ne hother, hholds.lookup_evict_localIdc, hw]
    · rw [hholds.lookup_evict_localIdc, hw]

theorem HasIdc.remove (h : HasIdc md5 hashFn n x s) (hn : 0 < n) (hloc : key ≠ localIdcKey)
    (hkey : key.length < 65536) : HasIdc md5 hashFn n x (hashTblRemove md5 hashFn s key).2 := by
  obtain ⟨m, hholds, w, hw, hverify⟩ := h
  by_cases hne : key = []
  · rw [hashTblRemove, if_pos hne]
    exact ⟨m, hholds, w, hw, hverify⟩
  · obtain ⟨s', hr, hlru, hsees⟩ := hashTblRemove_spec hholds.sees hn hne hkey
    rw [hr]
    refine ⟨_, ⟨hsees, hlru ▸ hholds.lru, hlru ▸ hholds.listed, fun k hk => ?_⟩, w, ?_, hverify⟩
    · rw [hlru]
      exact hholds.covered k (Finmap.mem_erase.mp hk).2
    · rw [Finmap.lookup_erase_ne
        (fun heq => hloc ((seenAs_eq_short (by decide)).mp heq.symm)), hw]

/-- After a clear the local idc is not found. -/
theorem get_clear {m : BytesMap} (hholds : Holds md5 hashFn n s m) (hn : 0 < n) :
    qconfGetLocalidc md5 hashFn (hashTblClear s).2.tbl = (.errNotFound, []) := by
  have hsees : Sees md5 hashFn n (hashTblClear s).2.tbl ∅ := hholds.sees.clear
  have hget : hashTblGet md5 hashFn (hashTblClear s).2.tbl (tblkeyOf dataTypeLocalIdc [] []) = (.errNotFound, []) := by
    rw [hsees.hashTblGet_eq hn (by decide) (by decide), Finmap.lookup_empty]
  rw [qconfGetLocalidc, hget]

/-- **One event**: the local idc stays unless a `clear-all` is carried out. -/
theorem HasIdc.step (hn : 0 < n) (hidc : HasIdc md5 hashFn n x h.store)
    {a : HostEvent × Option Errno} (ha : HostAdmitted md5 hashFn h a)
    (hstep : hostStep md5 hashFn h a = some h') :
    (a.1.NoClear → HasIdc md5 hashFn n x h'.store) ∧
    (¬ a.1.NoClear → qconfGetLocalidc md5 hashFn h'.store.tbl ≠ (.ok, x)) := by
  have hany : ∀ e : Option Errno, HasIdc md5 hashFn n x { h.store with errno := e } := by
    intro e
    obtain ⟨m, hholds, hw⟩ := hidc
    exact ⟨m, hholds.setErrno e, hw⟩
  obtain ⟨ev, e⟩ := a
  cases ev with
  | set key val =>
    obtain ⟨⟨ret, s'⟩, hr, rfl⟩ := Option.map_eq_some_iff.mp hstep
    exact ⟨fun _ => (hany e).set hn ha.1 ha.2.1 ha.2.2 hr, fun hno => absurd trivial hno⟩
  | remove key =>
    obtain rfl := Option.some.inj hstep
    exact ⟨fun _ => (hany e).remove hn ha.1 ha.2, fun hno => absurd trivial hno⟩
  | commands writable files =>
    obtain ⟨⟨count, h₁⟩, hr, rfl⟩ := Option.map_eq_some_iff.mp hstep
    have hstore := qconfCmdProc_store hr
    dsimp only
    rw [hstore]
    refine ⟨fun hno => ?_, fun hclear => ?_⟩
    · rw [if_neg hno]
      exact hidc
    · obtain ⟨m, hholds, -⟩ := hidc
      rw [if_pos (not_not.mp hclear), get_clear hholds hn]
      simp

end

/-- A host whose agent has just created its table. -/
def freshHost (n : Nat) : Host := ⟨Store.init n, [], ∅, []⟩

/-- The host after the local idc `x` was set in a new table of two slots. -/
def idcHost : Host :=
  ((qconfInitLocalIdc zeroMd5 firstByte (freshHost 2) [120]).map Prod.snd).getD (freshHost 2)

end QConf.Agent
