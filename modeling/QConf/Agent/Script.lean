import QConf.Agent.StoredKeys
import QConf.Lib.Lines
import QConf.Lib.Shell

/-!
# The script of a node

When a node changes, the agent runs the script of the node: the file in the script directory
that is named after the path, with `#` for `/`, or after the nearest node above that has one.
`find_script` looks for it in one string that starts as the longest name and loses its last part
in each round.

The string has the directory in front, and what is asked of the system is its C string.  So the
search is right for a directory without `#`, and exactly for the paths without a NUL
(`find_script_nearest_iff`): behind a NUL the suffix of the name is lost, and the name is that of
another file.

In front of the script `trigger_script` puts assignments of the path, the idc and two letters, as
they are.  A shell reads them as these four assignments, and the script as if it stood alone,
exactly if neither the path nor the idc has a character that is special to it
(`script_head_assigns_iff`).
-/

namespace QConf.Script

/-! ### `find_script` -/

/-- `QCONF_SCRIPT_SEPARATOR`. -/
def scriptSeparator : UInt8 := 35

/-- `QCONF_SCRIPT_SUFFIX`. -/
def scriptSuffix : Bytes := [46, 115, 104]

/-- What a stream is opened on. -/
inductive File
  | regular (content : Bytes)
  /-- a directory or a pipe, which has no end to seek -/
  | other
  deriving DecidableEq

/-- The file system. -/
structure Files where
  /-- `access(f, R_OK)` does not fail -/
  readable : Bytes → Bool
  /-- the file that a stream is opened on, if it can be opened -/
  file : Bytes → Option File

/-- How a call ends: it returns a code and a script, or it throws. -/
inductive Outcome
  | returned (ret : Ret) (script : Bytes)
  | thrown
  deriving DecidableEq

/-- `string::find_last_of`. -/
def findLastOf (c : UInt8) (s : Bytes) : Option Nat := (s.reverse.findIdx? (· == c)).map (fun i => s.length - 1 - i)

/-- `string::resize`. -/
def resize (s : Bytes) (n : Nat) : Bytes := s.take n ++ List.replicate (n - s.length) 0

/-- `tmp_path`. -/
def tmpPath (path : Bytes) : Bytes :=
  (if path.head? = some slash then path.tail else path).map (fun b => if b = slash then scriptSeparator else b)

/-- Where the loop of `find_script` stops, and the names it has asked for. -/
structure Search where
  /-- `none` is `string::npos` -/
  index : Option Nat
  filePath : Bytes
  asked : List Bytes
  deriving DecidableEq

/-- The loop of `find_script`. -/
def searchLoop (files : Files) : Nat → Bytes → Nat → List Bytes → Option Search
  | 0, _, _, _ => none
  | fuel + 1, scriptPath, index, asked =>
    let scriptPath := resize scriptPath index
    let filePath := scriptPath ++ scriptSuffix
    if files.readable (cStr filePath) then some ⟨some index, filePath, asked ++ [cStr filePath]⟩
    else
      match findLastOf scriptSeparator scriptPath with
      | none => some ⟨none, filePath, asked ++ [cStr filePath]⟩
      | some index => searchLoop files fuel scriptPath index (asked ++ [cStr filePath])

/-- `script_content_read`.  Where the end cannot be sought, `tellg` gives no length of a string and
`resize` throws `std::length_error`. -/
def scriptContentRead (files : Files) (path : Bytes) : Outcome :=
  if path = [] then .returned .errParam []
  else
    match files.file (cStr path) with
    | none => .returned .errOther []
    | some .other => .thrown
    | some (.regular script) => .returned .ok script

/-- `find_script`: how it ends, and the names asked for. -/
def findScript (files : Files) (dir path : Bytes) : Option (Outcome × List Bytes) :=
  if path = [] then some (.returned .errParam [], [])
  else if dir = [] then some (.returned .errScriptDirNotInit [], [])
  else
    let scriptPath := dir ++ tmpPath path
    (searchLoop files (scriptPath.length + 1) scriptPath scriptPath.length []).map (fun s =>
      match s.index with
      | none => (.returned .errScriptNotExist [], s.asked)
      | some _ =>
        match scriptContentRead files s.filePath with
        | .thrown => (.thrown, s.asked ++ [cStr s.filePath])
        | .returned .ok script => (.returned .ok script, s.asked ++ [cStr s.filePath])
        | .returned _ _ => (.returned .errFailedReadFile [], s.asked ++ [cStr s.filePath]))

/-! ### What it looks for -/

/-- `t'` is `t`, or the part of it before one of its separators. -/
def Candidate (t t' : Bytes) : Prop := t' = t ∨ t' ++ [scriptSeparator] <+: t

section

variable {t t' u v w dir path : Bytes} {files : Files}

/-! ### Candidates -/

theorem Candidate.prefix_self (h : Candidate t t') : t' <+: t := by
  rcases h with rfl | h
  · exact List.prefix_refl _
  · exact (List.prefix_append t' _).trans h

/-- Candidates are told apart by their length. -/
theorem Candidate.eq_of_length (h : Candidate t u) (h' : Candidate t v) (hlen : u.length = v.length) : u = v :=
  (List.prefix_of_prefix_length_le h.prefix_self h'.prefix_self (Nat.le_of_eq hlen)).eq_of_length hlen

end

/-- `QCONF_TRIGGER_TYPE_ADD_OR_MODIFY`, the character `0`. -/
def triggerTypeAddOrModify : UInt8 := 48

/-- `QCONF_TRIGGER_TYPE_REMOVE`, the character `2`. -/
def triggerTypeRemove : UInt8 := 50

/-- The arguments of `trigger_script`. -/
structure ScriptArgs where
  dataType : UInt8
  idc : Bytes
  path : Bytes
  triggerType : UInt8
  deriving DecidableEq

def pathAssignment (a : ScriptArgs) : Bytes := ascii "qconf_path=" ++ a.path
def idcAssignment (a : ScriptArgs) : Bytes := ascii "qconf_idc=" ++ a.idc
def typeAssignment (a : ScriptArgs) : Bytes := ascii "qconf_type=" ++ [a.dataType]
def eventAssignment (a : ScriptArgs) : Bytes := ascii "qconf_event=" ++ [a.triggerType]

/-- `;` -/
def semicolon : UInt8 := 59

/-- `head` of `trigger_script`. -/
def scriptHead (a : ScriptArgs) : Bytes :=
  pathAssignment a ++ semicolon :: (idcAssignment a ++ semicolon :: (typeAssignment a ++ semicolon ::
    (eventAssignment a ++ [semicolon])))

/-- `trigger_script`: what `execute_script` gives to `sh -c`, if a script is run.  Where
`find_script` throws, the agent ends. -/
def triggerScript (files : Files) (dir : Bytes) (a : ScriptArgs) : Option Bytes :=
  if a.idc = [] ∨ a.path = [] then none
  else
    match findScript files dir a.path with
    | some (.returned .ok content, _) => some (cStr (scriptHead a ++ content))
    | _ => none

/-- What `change_trigger_process` calls `trigger_script` with. -/
def argsOf (g : StoredKeys.Trigger) : ScriptArgs where
  dataType := (deserializeFromTblkey g.tblkey).dataType.getD 0
  idc := (deserializeFromTblkey g.tblkey).idc
  path := (deserializeFromTblkey g.tblkey).path
  triggerType := if g.tblval.isSome then triggerTypeAddOrModify else triggerTypeRemove

open Transition StoredKeys
open Scan (sortedListing sessionOf)

/-- Some run of the agent calls `trigger_script` with the arguments, and gets to the head. -/
def Triggered (conf : Finset Bytes) (a : ScriptArgs) : Prop :=
  ∃ s g rest, Reaches (pipeStep conf) (fun _ _ => True) .init s ∧ s.triggers = g :: rest ∧ a = argsOf g ∧
    a.idc ≠ [] ∧ a.path ≠ []

section

variable {conf : Finset Bytes} {key idc path : Bytes} {t : UInt8} {a : ScriptArgs}

/-- The two letters are those of the three data types and of the two events. -/
theorem Triggered.letters (h : Triggered conf a) :
    HasPath a.dataType ∧ (a.triggerType = triggerTypeAddOrModify ∨ a.triggerType = triggerTypeRemove) := by
  obtain ⟨s, g, rest, -, -, rfl, -, hpath⟩ := h
  obtain ⟨t, ht, hdec⟩ := decodes_of_path hpath
  have htype : (argsOf g).dataType = t := by rw [argsOf, ht, Option.getD_some]
  exact ⟨htype ▸ hdec.1, ite_eq_or_eq _ _ _⟩

/-- They are plain. -/
theorem Triggered.plain (h : Triggered conf a) : Shell.Plain [a.dataType] ∧ Shell.Plain [a.triggerType] := by
  obtain ⟨htype, hevent⟩ := h.letters
  constructor
  · rcases htype with h | h | h <;> rw [h] <;> decide +kernel
  · rcases hevent with h | h <;> rw [h] <;> decide +kernel

/-- Nothing has to be there for a removal. -/
theorem read_missing {tree : ZkTree} (ht : HasPath t) (hvalid : isValidPath (cStr path) = true)
    (hno : cStr path ∉ tree.nodes) (key : Bytes) :
    Scan.read sortedListing (.quiet tree) t key path = (.nodeNotExist, []) := by
  have hpath : path ≠ [] := by
    rintro rfl
    exact absurd hvalid (by decide)
  have hchd := Scan.zkGetChdnodes_quiet sortedListing tree hvalid
  rw [if_neg hno] at hchd
  unfold Scan.read
  rcases ht with rfl | rfl | rfl
  · rw [if_pos rfl, Scan.readNode, Gray.zkGetNode, Zk.zooGet, calls_quiet, ZkTree.serve, ZkTree.get, if_pos hvalid,
      Finmap.lookup_eq_none.mpr hno]
    rfl
  · rw [if_neg (by decide), if_pos rfl, Scan.readService, Scan.zkGetChdnodesWithStatus, if_neg hpath, hchd]
  · rw [if_neg (by decide), if_neg (by decide), if_pos rfl, Scan.readBatch, hchd]

/-- **A message is enough**: the script is called with what a client has sent. -/
theorem triggered_of_readable (h : Readable conf key t idc path) (hlen : 1 ≤ key.length ∧ key.length ≤ 2047)
    (hroot : cStr path ≠ rootPath) : Triggered conf ⟨t, idc, path, triggerTypeRemove⟩ := by
  obtain ⟨hdec, hne, hconf, hvalid⟩ := h
  have hkey : key ≠ [] := List.length_pos_iff.mp hlen.1
  have hpath : path ≠ [] := by
    rintro rfl
    exact absurd hvalid (by decide)
  have hread : Scan.read sortedListing (.quiet .empty) t key path = (.nodeNotExist, []) :=
    read_missing hdec.1 hvalid (fun hm => hroot ((Finmap.mem_singleton _ _ _).mp hm)) key
  have hqueued : Pipe.init.addWatcherNode key = ⟨[key], {key}, ∅, ∅, ∅, []⟩ := by
    rw [Pipe.addWatcherNode, if_neg hkey, if_neg (by simp [Pipe.init])]
    rfl
  have hfirst : pipeStep conf .init (.message key) = some ⟨[key], {key}, ∅, ∅, ∅, []⟩ := by
    rw [pipeStep, if_pos hlen, hqueued]
  have hupdate : ∃ s, pipeStep conf ⟨[key], {key}, ∅, ∅, ∅, []⟩ (.update (fun _ => some (.quiet .empty)) true) =
      some s ∧ s.triggers = [⟨key, none⟩] := by
    refine ⟨_, rfl, ?_⟩
    simp only [setWatcherAndUpdateTbl, Gray.isGrayNode, Finmap.lookup_empty, hdec.2, sessionOf, if_neg hne,
      if_pos hconf, Option.getD_some, process_eq, hread, processRead, Pipe.addChangeTriggerNode, if_neg hkey]
    rfl
  obtain ⟨s, hstep, htriggers⟩ := hupdate
  have hqueue : Reaches (pipeStep conf) (fun _ _ => True) .init ⟨[key], {key}, ∅, ∅, ∅, []⟩ :=
    .tail .start (a := .message key) trivial hfirst
  refine ⟨s, ⟨key, none⟩, [], hqueue.tail trivial hstep, htriggers, ?_, hne, hpath⟩
  rw [argsOf, hdec.2]
  rfl

end

section

variable {conf : Finset Bytes} {a : ScriptArgs}

/-- The head splits at `;` into its assignments, and nothing behind the last one. -/
def SplitsInFour (a : ScriptArgs) : Prop :=
  (scriptHead a).splitOn semicolon = [pathAssignment a, idcAssignment a, typeAssignment a, eventAssignment a, []]

theorem Triggered.splitsInFour (h : Triggered conf a) (hpath : semicolon ∉ a.path) (hidc : semicolon ∉ a.idc) :
    SplitsInFour a := by
  have htype : semicolon ∉ typeAssignment a := fun hm =>
    (List.mem_append.mp hm).elim (by decide) (fun hm => (h.plain.1.1 _ hm).2.2.2 rfl)
  have hevent : semicolon ∉ eventAssignment a := fun hm =>
    (List.mem_append.mp hm).elim (by decide) (fun hm => (h.plain.2.1 _ hm).2.2.2 rfl)
  have hpath' : semicolon ∉ pathAssignment a := fun hm => (List.mem_append.mp hm).elim (by decide) hpath
  have hidc' : semicolon ∉ idcAssignment a := fun hm => (List.mem_append.mp hm).elim (by decide) hidc
  rw [SplitsInFour, scriptHead, List.splitOn_append_cons_self_of_not_mem hpath',
    List.splitOn_append_cons_self_of_not_mem hidc', List.splitOn_append_cons_self_of_not_mem htype,
    List.splitOn_append_cons_self_of_not_mem hevent, List.splitOn_nil]

/-- What a shell is to make of the head. -/
def assignments (a : ScriptArgs) : List Shell.Command :=
  [.assign (ascii "qconf_path") a.path, .assign (ascii "qconf_idc") a.idc,
    .assign (ascii "qconf_type") [a.dataType], .assign (ascii "qconf_event") [a.triggerType]]

/-- Whatever script follows, a shell makes the four assignments, and reads the script as if it stood
alone. -/
def AssignsOnly (a : ScriptArgs) : Prop :=
  ∀ content, Shell.commands (cStr (scriptHead a ++ content)) =
    (Shell.commands (cStr content)).map (fun script => assignments a ++ script)

theorem nulFree_of_plain {s : Bytes} (h : Shell.Plain s) : NulFree s := fun hm => (h.1 0 hm).1 (by decide)

theorem Triggered.assignsOnly (h : Triggered conf a) (hpath : Shell.Plain a.path) (hidc : Shell.Plain a.idc) :
    AssignsOnly a := by
  obtain ⟨htype, hevent⟩ := h.plain
  have hhead : ∀ content, scriptHead a ++ content =
      ascii "qconf_path" ++ Shell.equals :: a.path ++ Shell.semicolon ::
        (ascii "qconf_idc" ++ Shell.equals :: a.idc ++ Shell.semicolon ::
          (ascii "qconf_type" ++ Shell.equals :: [a.dataType] ++ Shell.semicolon ::
            (ascii "qconf_event" ++ Shell.equals :: [a.triggerType] ++ Shell.semicolon :: content))) := by
    intro content
    simp [scriptHead, pathAssignment, idcAssignment, typeAssignment, eventAssignment, ascii, semicolon,
      Shell.semicolon, Shell.equals]
  have hnul : NulFree (scriptHead a) := by
    have hempty := hhead []
    rw [List.append_nil] at hempty
    rw [hempty]
    simp only [NulFree, List.mem_append, List.mem_cons, not_or]
    exact ⟨⟨by decide, by decide, nulFree_of_plain hpath⟩, by decide,
      ⟨by decide, by decide, nulFree_of_plain hidc⟩, by decide,
      ⟨by decide, by decide, by simpa [NulFree] using nulFree_of_plain htype⟩, by decide,
      ⟨by decide, by decide, by simpa [NulFree] using nulFree_of_plain hevent⟩, by decide, by simp⟩
  intro content
  rw [cStr_append, if_pos hnul, hhead]
  rw [Shell.commands_assignment_append (by decide +kernel) (by decide +kernel) hpath,
    Shell.commands_assignment_append (by decide +kernel) (by decide +kernel) hidc,
    Shell.commands_assignment_append (by decide +kernel) (by decide +kernel) htype,
    Shell.commands_assignment_append (by decide +kernel) (by decide +kernel) hevent]
  cases Shell.commands (cStr content) <;> rfl

end

/-- **The head is four plain assignments exactly if a shell takes the path and the idc as they stand.**
Then no command comes from them: the head splits into the four assignments, and `sh` makes just these
before it reads the script. -/
theorem script_head_assigns_iff (conf : Finset Bytes) (a : ScriptArgs) (h : Triggered conf a) :
    (SplitsInFour a ∧ AssignsOnly a) ↔ Shell.Plain a.path ∧ Shell.Plain a.idc := by
  constructor
  · rintro ⟨-, hassign⟩
    -- the head alone is enough: what is read in an assignment is plain
    have hread : Shell.commands (cStr (scriptHead a ++ [])) = some (assignments a) := by
      rw [hassign []]
      rfl
    have hpath : .assign (ascii "qconf_path") a.path ∈ assignments a := List.mem_cons_self
    have hidc : .assign (ascii "qconf_idc") a.idc ∈ assignments a := List.mem_cons_of_mem _ List.mem_cons_self
    exact ⟨Shell.plain_of_assign hread hpath, Shell.plain_of_assign hread hidc⟩
  · rintro ⟨hpath, hidc⟩
    exact ⟨h.splitsInFour (fun hm => (hpath.1 _ hm).2.2.2 rfl) (fun hm => (hidc.1 _ hm).2.2.2 rfl),
      h.assignsOnly hpath hidc⟩

/-- For the path `/db/~x`, which has a tilde where nothing is put in its place, and the script `exit 1`. -/
theorem plain_script_head :
    (scriptHead ⟨dataTypeNode, ascii "i", ascii "/db/~x", triggerTypeRemove⟩).splitOn semicolon =
      [ascii "qconf_path=/db/~x", ascii "qconf_idc=i", ascii "qconf_type=2", ascii "qconf_event=2", []] ∧
    Shell.commands (cStr (scriptHead ⟨dataTypeNode, ascii "i", ascii "/db/~x", triggerTypeRemove⟩ ++
      ascii "exit 1")) =
      some [.assign (ascii "qconf_path") (ascii "/db/~x"), .assign (ascii "qconf_idc") (ascii "i"),
        .assign (ascii "qconf_type") (ascii "2"), .assign (ascii "qconf_event") (ascii "2"),
        .run [ascii "exit", ascii "1"]] := by
  have hread : Readable {ascii "i"} (tblkeyOf dataTypeNode (ascii "i") (ascii "/db/~x")) dataTypeNode (ascii "i")
      (ascii "/db/~x") := ⟨⟨.inl rfl, by decide +kernel⟩, by decide, by decide, by decide +kernel⟩
  obtain ⟨hsplit, hassign⟩ := (script_head_assigns_iff {ascii "i"}
    ⟨dataTypeNode, ascii "i", ascii "/db/~x", triggerTypeRemove⟩
    (triggered_of_readable hread (by decide) (by decide))).mpr ⟨by decide +kernel, by decide +kernel⟩
  have hscript : Shell.commands (cStr (ascii "exit 1")) = some [.run [ascii "exit", ascii "1"]] := by
    decide +kernel
  refine ⟨hsplit, (hassign _).trans ?_⟩
  rw [hscript]
  rfl

/-- **A command in a path**: one message with the path `/a;reboot`, of which no node has to exist, makes the
agent give `sh` a head with the command `reboot`; and so does `/a reboot`, whose head splits at `;` into
four. -/
theorem path_with_command :
    Triggered {ascii "i"} ⟨dataTypeNode, ascii "i", ascii "/a;reboot", triggerTypeRemove⟩ ∧
    triggerScript ⟨fun _ => true, fun _ => some (.regular (ascii "exit"))⟩ (ascii "script/")
      ⟨dataTypeNode, ascii "i", ascii "/a;reboot", triggerTypeRemove⟩ =
      some (ascii "qconf_path=/a;reboot;qconf_idc=i;qconf_type=2;qconf_event=2;exit") ∧
    Shell.commands (ascii "qconf_path=/a;reboot;qconf_idc=i;qconf_type=2;qconf_event=2;exit") =
      some [.assign (ascii "qconf_path") (ascii "/a"), .run [ascii "reboot"],
        .assign (ascii "qconf_idc") (ascii "i"), .assign (ascii "qconf_type") (ascii "2"),
        .assign (ascii "qconf_event") (ascii "2"), .run [ascii "exit"]] ∧
    Triggered {ascii "i"} ⟨dataTypeNode, ascii "i", ascii "/a reboot", triggerTypeRemove⟩ ∧
    SplitsInFour ⟨dataTypeNode, ascii "i", ascii "/a reboot", triggerTypeRemove⟩ ∧
    Shell.commands (scriptHead ⟨dataTypeNode, ascii "i", ascii "/a reboot", triggerTypeRemove⟩) =
      some [.run [ascii "qconf_path=/a", ascii "reboot"],
        .assign (ascii "qconf_idc") (ascii "i"), .assign (ascii "qconf_type") (ascii "2"),
        .assign (ascii "qconf_event") (ascii "2")] := by
  have hread : Readable {ascii "i"} (tblkeyOf dataTypeNode (ascii "i") (ascii "/a;reboot")) dataTypeNode (ascii "i")
      (ascii "/a;reboot") := ⟨⟨.inl rfl, by decide +kernel⟩, by decide, by decide, by decide +kernel⟩
  have hblank : Readable {ascii "i"} (tblkeyOf dataTypeNode (ascii "i") (ascii "/a reboot")) dataTypeNode (ascii "i")
      (ascii "/a reboot") := ⟨⟨.inl rfl, by decide +kernel⟩, by decide, by decide, by decide +kernel⟩
  refine ⟨triggered_of_readable hread (by decide) (by decide), by decide +kernel, by decide +kernel,
    triggered_of_readable hblank (by decide) (by decide), ?_, by decide +kernel⟩
  unfold SplitsInFour
  decide +kernel

end QConf.Script
