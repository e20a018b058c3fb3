import QConf.Lib.ByteCodec
import QConf.Lib.Sorting

/-!
# Constants shared by the programs

The return codes, the data types and the service statuses of `qconf_common.h`,
`qconf_const.h` and `qconf_zk.h`.  The agent, the drivers and the manager use
one numbering, so one type stands for all of it.
-/

namespace QConf

/-- The return codes of the modelled functions. -/
inductive Ret
  | ok
  | errOther
  | errParam
  | errMem
  | errOpen
  | errCmd
  | errE2big
  | errMsgsnd
  | errMsgfull
  | errTblSet
  | errDataType
  | errDataFormat
  | errNotFound
  | errSameValue
  | errTblDataMess
  | errTblEnd
  | errOutOfRange
  | errNotNumber
  | errOthreCharacter
  | errZooFailed
  | errZooNotempty
  | errZooNotExist
  | errZooAlreadyExist
  | nodeNotExist
  | errGrayGetNotifyNode
  | errGrayGetNotifyContent
  | errGraySerialize
  | errGraySetContent
  | errGraySetClients
  | errGraySetBacklink
  | errGrayGetContent
  | errGrayGetBacklink
  | errGrayDeleteContent
  | errGrayDeleteClients
  | errGrayDeleteBacklink
  | errGrayCommit
  | errGrayFakeShmFailed
  | errNodeType
  | errInvalidIp
  | errScriptNotExist
  | errScriptDirNotInit
  | errFailedReadFile
  deriving DecidableEq, Repr

/-! ### Data types, the first byte of a table key -/

/-- `QCONF_DATA_TYPE_UNKNOWN`, the character `0`. -/
def dataTypeUnknown : UInt8 := 48
/-- `QCONF_DATA_TYPE_ZK_HOST`, the character `1`. -/
def dataTypeZkHost : UInt8 := 49
/-- `QCONF_DATA_TYPE_NODE`, the character `2`. -/
def dataTypeNode : UInt8 := 50
/-- `QCONF_DATA_TYPE_SERVICE`, the character `3`. -/
def dataTypeService : UInt8 := 51
/-- `QCONF_DATA_TYPE_BATCH_NODE`, the character `4`. -/
def dataTypeBatchNode : UInt8 := 52
/-- `QCONF_DATA_TYPE_LOCAL_IDC`, the character `a`. -/
def dataTypeLocalIdc : UInt8 := 97

/-! ### Service statuses -/

/-- `STATUS_UP`, `STATUS_OFFLINE` and `STATUS_DOWN`, numbered 0, 1 and 2. -/
inductive Status
  | up
  | offline
  | down
  deriving DecidableEq, Repr

/-! ### Strings as the C functions see them -/

/-- What `s.c_str()` is to a function that takes a C string: the bytes before
the first NUL. -/
def cStr (s : Bytes) : Bytes := s.takeWhile (· ≠ 0)

/-- The items that calls of `getline` find in a text up to its end, with `item` what is read of the first
one. -/
def getlines (delim : UInt8) : Bytes → Bytes → List Bytes
  | item, [] => if item = [] then [] else [item]
  | item, b :: rest =>
    if b = delim then item :: getlines delim [] rest else getlines delim (item ++ [b]) rest

/-- A string without a NUL byte, which passes through `c_str()` unchanged. -/
def NulFree (s : Bytes) : Prop := (0 : UInt8) ∉ s

instance (s : Bytes) : Decidable (NulFree s) := inferInstanceAs (Decidable (_ ∉ _))

theorem cStr_of_nulFree {s : Bytes} (h : NulFree s) : cStr s = s := by
  rw [cStr, List.takeWhile_eq_self_iff]
  intro b hb
  have hne : b ≠ 0 := fun h0 => h (h0 ▸ hb)
  simpa using hne

theorem nulFree_cStr (s : Bytes) : NulFree (cStr s) := by
  intro h
  have := List.mem_takeWhile_imp h
  simp at this

/-- A C string ends at the first NUL byte. -/
theorem cStr_append (s s' : Bytes) : cStr (s ++ s') = if NulFree s then s ++ cStr s' else cStr s := by
  have hiff : (cStr s).length = s.length ↔ NulFree s := by
    constructor
    · intro h
      rw [← (List.takeWhile_prefix (fun b : UInt8 => decide (b ≠ 0))).eq_of_length h]
      exact nulFree_cStr s
    · intro h
      rw [cStr_of_nulFree h]
  by_cases h : NulFree s
  · rw [if_pos h]
    exact List.takeWhile_append.trans (if_pos (hiff.mpr h))
  · rw [if_neg h]
    exact List.takeWhile_append.trans (if_neg (fun he => h (hiff.mp he)))

/-- The bytes of an ASCII string of the source. -/
def ascii (s : String) : Bytes := s.toList.map (fun c => UInt8.ofNat c.toNat)

/-- The law behind every test for a string in a list, named for all modules. -/
instance lawfulBEq_bytes : LawfulBEq Bytes := inferInstance

/-- A finite map from strings to strings. -/
abbrev BytesMap := Finmap (fun _ : Bytes => Bytes)

section

variable {α β : Type} [DecidableEq α] {m : Finmap (fun _ : α => β)} {k k' : α} {v w : β}

theorem lookup_insert_iff : (m.insert k w).lookup k' = some v ↔ (k' = k ∧ w = v) ∨ (k' ≠ k ∧ m.lookup k' = some v) := by
  by_cases hk : k' = k
  · subst hk
    simp [Finmap.lookup_insert]
  · simp [Finmap.lookup_insert_of_ne _ hk, hk]

theorem lookup_erase_iff : (m.erase k).lookup k' = some v ↔ k' ≠ k ∧ m.lookup k' = some v := by
  by_cases hk : k' = k
  · subst hk
    simp [Finmap.lookup_erase]
  · simp [Finmap.lookup_erase_ne hk, hk]

end

/-- The slash, which separates the components of a path. -/
def slash : UInt8 := 47

/-- The elements of a set of strings in the order in which `set<string>` and
`strcmp` have them. -/
def sortBytes (s : Finset Bytes) : List Bytes := Sorting.sortedList (· ≤ ·) s

@[simp] theorem mem_sortBytes {s : Finset Bytes} {b : Bytes} : b ∈ sortBytes s ↔ b ∈ s :=
  Sorting.mem_sortedList

theorem nodup_sortBytes (s : Finset Bytes) : (sortBytes s).Nodup := Sorting.nodup_sortedList s

theorem sortBytes_toFinset (s : Finset Bytes) : (sortBytes s).toFinset = s := by
  ext b
  rw [List.mem_toFinset, mem_sortBytes]

theorem sortBytes_singleton (b : Bytes) : sortBytes {b} = [b] := by
  rw [← List.perm_singleton, List.perm_ext_iff_of_nodup (nodup_sortBytes _) (List.nodup_singleton _)]
  simp

theorem sortBytes_length (s : Finset Bytes) : (sortBytes s).length = s.card := by
  rw [← List.toFinset_card_of_nodup (nodup_sortBytes s), sortBytes_toFinset]

end QConf
