import QConf.Agent.StoredKeys
import QConf.Base.Decode

/-!
# The periodic scan

`process_tbl` walks over the table and asks `diff_with_zk` for every entry whether ZooKeeper
still has what the value was made from; where it says no, the key is queued.  Both sides
read ZooKeeper in the same way and encode what they read under the key, so the question is
whether two encodings are equal exactly when the contents are.

* The order in which ZooKeeper lists the children is lost (`zkGetChdnodes_spec`).
* The statuses are read child by child along the sorted names, and only the names that
  are up are encoded (`readService_answers`).
* The encodings are injective within their lengths (`encodeNames_inj`).
-/

namespace QConf.Scan

open Shm StoredKeys ByteCodec

/-! ### The comparison -/

/-- What `diff_with_zk` makes of what it read. -/
def differs (tblval : Bytes) : Ret × Bytes → Bool
  | (.nodeNotExist, _) => true
  | (.ok, tblvalNew) => tblval ≠ tblvalNew
  | _ => false

/-- `diff_with_zk`. -/
def diffWithZk (conf : Finset Bytes) (sessions : Bytes → Option Zk) (l : Listing) (tblkey tblval : Bytes) :
    Bool :=
  let parts := deserializeFromTblkey tblkey
  let dataType := parts.dataType.getD dataTypeUnknown
  if dataType = dataTypeZkHost ∨ dataType = dataTypeLocalIdc then false
  else
    match sessionOf conf sessions parts.idc with
    | none => false
    | some zk =>
      if dataType = dataTypeNode then differs tblval (readNode zk tblkey parts.path)
      else if dataType = dataTypeService then differs tblval (readService l zk tblkey parts.path)
      else if dataType = dataTypeBatchNode then differs tblval (readBatch l zk tblkey parts.path)
      else false

/-! ### The contents -/

/-- The status in the data of a node. -/
def statusAt (t : ZkTree) (p : Bytes) : Option Status := (t.nodes.lookup p).bind statusOfValue

/-- The children that are up. -/
def upChildren (t : ZkTree) (p : Bytes) : Finset Bytes :=
  (t.children p).filter (fun c => statusAt t (childPath p c) = some .up)

/-- The two trees have at `p` another content of the kind that the data type stands for. -/
def Differ (dataType : UInt8) (x y : ZkTree) (p : Bytes) : Prop :=
  (dataType = dataTypeNode ∧ x.nodes.lookup p ≠ y.nodes.lookup p) ∨
  (dataType = dataTypeService ∧ upChildren x p ≠ upChildren y p) ∨
  (dataType = dataTypeBatchNode ∧ x.children p ≠ y.children p)

/-- The children are within the lengths of the encoders. -/
def WithinLimits (t : ZkTree) (p : Bytes) : Prop :=
  (t.children p).card ≤ 65535 ∧ ∀ c ∈ t.children p, c.length ≤ 65535

section

variable {l : Listing} {zk zk' : Zk} {tblkey path : Bytes}

/-! ### Sorting makes the order irrelevant -/

theorem filter_sortBytes (s : Finset Bytes) (f : Bytes → Prop) [DecidablePred f] :
    (sortBytes s).filter (fun c => f c) = sortBytes (s.filter f) := by
  refine Sorting.eq_sortedList ((Sorting.pairwise_sortedList s).filter _) ((nodup_sortBytes s).filter _) ?_
  intro c
  simp

/-! ### The encodings are injective -/

/-- A list of names in front of a key. -/
def encodeNames (tblkey : Bytes) (names : List Bytes) : Bytes :=
  leBytes vectorCountLen names.length ++ names.flatMap appendChild ++ tblkey

/-- The names fit the lengths of the encoders. -/
def NamesFit (names : List Bytes) : Prop :=
  names.length < 65536 ∧ ∀ b ∈ names, NulFree b ∧ b.length < 65536

theorem encodeNames_inj {names names' : List Bytes} (hn : NamesFit names) (hn' : NamesFit names')
    (h : encodeNames tblkey names = encodeNames tblkey names') : names = names' := by
  have hread : ∀ {names : List Bytes}, NamesFit names →
      qconfSubVectorval (encodeNames tblkey names) 0 =
        some (names, (leBytes vectorCountLen names.length ++
          names.flatMap (field hostPathSizeLen)).length) := by
    intro names hn
    have hlong : ¬ (encodeNames tblkey names).length < 0 + vectorCountLen := by
      rw [encodeNames, List.append_assoc, List.length_append, leBytes_length]
      omega
    have hcount : leNat (((encodeNames tblkey names).drop 0).take vectorCountLen) = names.length := by
      rw [List.drop_zero, encodeNames, List.append_assoc, List.take_left' (leBytes_length _ _),
        leNat_leBytes]
      exact Nat.mod_eq_of_lt hn.1
    have hsub := subNames_fields tblkey names (leBytes vectorCountLen names.length)
      (fun b hb => (hn.2 b hb).2)
    rw [leBytes_length] at hsub
    rw [qconfSubVectorval, if_neg hlong, hcount, Nat.zero_add, encodeNames,
      flatMap_appendChild_nulFree (fun b hb => (hn.2 b hb).1) (fun b hb => (hn.2 b hb).2)]
    exact hsub
  have h1 := hread hn
  rw [h, hread hn', Option.some.injEq, Prod.mk.injEq] at h1
  exact h1.1.symm

/-- The table value of what a tree has at `p`. -/
def encodeContent (dataType : UInt8) (tblkey : Bytes) (x : ZkTree) (p : Bytes) : Bytes :=
  if dataType = dataTypeNode then nodevalToTblval tblkey ((x.nodes.lookup p).getD [])
  else if dataType = dataTypeService then encodeNames tblkey (sortBytes (upChildren x p))
  else encodeNames tblkey (sortBytes (x.children p))

theorem nulFree_child {t : ZkTree} {p c : Bytes} (hc : c ∈ t.children p) : NulFree c := by
  obtain ⟨q, hq, hroot, -, rfl⟩ := ZkTree.mem_children.mp hc
  obtain ⟨hsplit, -⟩ := ZkTree.eq_childPath (t.valid q hq) hroot
  have hnul := isValidPath_nulFree (t.valid q hq)
  rw [hsplit, childPath] at hnul
  split at hnul
  · exact fun h => hnul (List.mem_cons_of_mem _ h)
  · exact fun h => hnul (List.mem_append_right _ (List.mem_cons_of_mem _ h))

theorem namesFit_sortBytes {t : ZkTree} {p : Bytes} (h : WithinLimits t p) {s : Finset Bytes}
    (hs : s ⊆ t.children p) : NamesFit (sortBytes s) := by
  constructor
  · rw [sortBytes_length]
    have := Finset.card_le_card hs
    have := h.1
    omega
  · intro c hc
    have hc := hs (mem_sortBytes.mp hc)
    exact ⟨nulFree_child hc, Nat.lt_succ_of_le (h.2 c hc)⟩

theorem sortBytes_inj {s s' : Finset Bytes} (h : sortBytes s = sortBytes s') : s = s' := by
  rw [← sortBytes_toFinset s, h, sortBytes_toFinset]

/-- **Equal values are equal contents.** -/
theorem encodeContent_eq_iff {t : UInt8} (ht : HasPath t) {x y : ZkTree} {p : Bytes} (hx : p ∈ x.nodes)
    (hy : p ∈ y.nodes) (hlx : WithinLimits x p) (hly : WithinLimits y p) :
    encodeContent t tblkey x p = encodeContent t tblkey y p ↔ ¬ Differ t x y p := by
  have hnames : ∀ {s s' : Finset Bytes}, s ⊆ x.children p → s' ⊆ y.children p →
      (encodeNames tblkey (sortBytes s) = encodeNames tblkey (sortBytes s') ↔ s = s') := fun hs hs' =>
    ⟨fun h => sortBytes_inj (encodeNames_inj (namesFit_sortBytes hlx hs) (namesFit_sortBytes hly hs') h),
      fun h => by rw [h]⟩
  rcases ht with rfl | rfl | rfl
  · obtain ⟨d, hd⟩ := Finmap.mem_iff.mp hx
    obtain ⟨d', hd'⟩ := Finmap.mem_iff.mp hy
    have hdata : nodevalToTblval tblkey d = nodevalToTblval tblkey d' ↔ d = d' := by
      refine ⟨fun h => (field_append_inj (w := valueSizeLen) ?_ ?_ h).1, fun h => by rw [h]⟩
      · exact Nat.lt_of_le_of_lt (x.small _ _ hd) (by decide)
      · exact Nat.lt_of_le_of_lt (y.small _ _ hd') (by decide)
    have hdiff : Differ dataTypeNode x y p ↔ d ≠ d' := by
      simp [Differ, hd, hd', dataTypeNode, dataTypeService, dataTypeBatchNode]
    rw [hdiff, not_not, encodeContent, encodeContent, if_pos rfl, if_pos rfl, hd, hd']
    exact hdata
  · have hdiff : Differ dataTypeService x y p ↔ upChildren x p ≠ upChildren y p := by
      simp [Differ, dataTypeNode, dataTypeService, dataTypeBatchNode]
    rw [hdiff, not_not, encodeContent, encodeContent, if_neg (by decide), if_pos rfl, if_neg (by decide),
      if_pos rfl]
    exact hnames (Finset.filter_subset _ _) (Finset.filter_subset _ _)
  · have hdiff : Differ dataTypeBatchNode x y p ↔ x.children p ≠ y.children p := by
      simp [Differ, dataTypeNode, dataTypeService, dataTypeBatchNode]
    rw [hdiff, not_not, encodeContent, encodeContent, if_neg (by decide), if_neg (by decide),
      if_neg (by decide), if_neg (by decide)]
    exact hnames (Finset.Subset.refl _) (Finset.Subset.refl _)

/-! ### What the reads give -/

/-- What a read says about the node: it is there with this value, or it is gone. -/
structure Answers (r : Ret × Bytes) (x : ZkTree) (p value : Bytes) : Prop where
  ok : r.1 = .ok → p ∈ x.nodes ∧ r.2 = value
  gone : r.1 = .nodeNotExist → p ∉ x.nodes

theorem readNode_answers (zk : Zk) (tblkey path : Bytes) : Answers (readNode zk tblkey path) zk.tree
    (cStr path) (encodeContent dataTypeNode tblkey zk.tree (cStr path)) := by
  unfold readNode
  split
  · next d _ hget =>
    obtain ⟨-, hok, -⟩ := Gray.zkGetNode_spec hget
    refine ⟨fun _ => ⟨ZkTree.mem_of_lookup (hok rfl), ?_⟩, fun h => absurd h (by simp)⟩
    rw [encodeContent, if_pos rfl, hok rfl]
    rfl
  · next ret _ _ hne hget =>
    obtain ⟨-, -, hgone⟩ := Gray.zkGetNode_spec hget
    exact ⟨fun h => absurd h hne, hgone⟩

theorem readBatch_answers (l : Listing) (zk : Zk) (tblkey path : Bytes) :
    Answers (readBatch l zk tblkey path) zk.tree (cStr path)
      (encodeContent dataTypeBatchNode tblkey zk.tree (cStr path)) := by
  unfold readBatch
  split
  · next nodes _ hget =>
    obtain ⟨-, hok, -⟩ := zkGetChdnodes_spec hget
    obtain ⟨hmem, rfl⟩ := hok rfl
    refine ⟨fun _ => ⟨hmem, ?_⟩, fun h => absurd h (by simp)⟩
    rw [encodeContent, if_neg (by decide), if_neg (by decide)]
    rfl
  · next ret _ _ hne hget =>
    obtain ⟨-, -, hgone⟩ := zkGetChdnodes_spec hget
    exact ⟨fun h => absurd h hne, hgone⟩

/-- The loop over the statuses, where it succeeds. -/
theorem zkGetStatuses_some (path : Bytes) : ∀ {names : List Bytes} {zk : Zk} {status : List Status},
    (zkGetStatuses path names zk).1 = some status →
      List.Forall₂ (fun c st => statusAt zk.tree (cStr (path ++ slash :: c)) = some st) names status := by
  intro names
  induction names with
  | nil =>
    intro zk status h
    obtain rfl := Option.some.inj h
    exact .nil
  | cons c names ih =>
    intro zk status h
    simp only [zkGetStatuses] at h
    split at h
    · exact absurd h (by simp)
    · next st zk₁ hst =>
      split at h
      · exact absurd h (by simp)
      · next sts zk₂ hsts =>
        obtain rfl := Option.some.inj h
        unfold zkGetServiceStatus at hst
        split at hst
        · next buf zk₃ hget =>
          obtain ⟨hvalue, rfl⟩ := Prod.mk.inj hst
          obtain ⟨htree, hok, -⟩ := Gray.zkGetNode_spec hget
          refine .cons ?_ (htree ▸ ih (by rw [hsts]))
          rw [statusAt, hok rfl]
          exact hvalue
        · exact absurd hst (by simp)

/-- The names beside the status `up` are those whose status is `up`. -/
theorem filter_zip_up {f : Bytes → Option Status} {names : List Bytes} {status : List Status}
    (h : List.Forall₂ (fun c st => f c = some st) names status) :
    ((names.zip status).filter (fun p => p.2 = Status.up)).map Prod.fst =
      names.filter (fun c => f c = some .up) := by
  induction h with
  | nil => rfl
  | @cons c st names status hc _ ih =>
    rw [List.zip_cons_cons, List.filter_cons, List.filter_cons]
    simp only [hc, Option.some.injEq]
    split
    · rw [List.map_cons, ih]
    · exact ih

theorem chdnodevalToTblval_encodeNames (tblkey : Bytes) (nodes : List Bytes) (status : List Status) :
    chdnodevalToTblval tblkey nodes status =
      encodeNames tblkey (((nodes.zip status).filter (fun p => p.2 = Status.up)).map Prod.fst) := by
  rw [encodeNames, List.length_map, List.flatMap_map]
  rfl

/-- Where the status of a child was read, it is the one of the child. -/
theorem statusAt_child {t : ZkTree} {c : Bytes} {st : Status} (hpath : NulFree path) (hc : NulFree c)
    (h : statusAt t (cStr (path ++ slash :: c)) = some st) : statusAt t (childPath (cStr path) c) = some st := by
  have hnul : NulFree (path ++ slash :: c) := by
    unfold NulFree
    rw [List.mem_append, List.mem_cons, not_or, not_or]
    exact ⟨hpath, by decide, hc⟩
  rw [cStr_of_nulFree hnul] at h
  rw [cStr_of_nulFree hpath, childPath]
  split
  · next hroot =>
    -- two slashes: there is no such node
    obtain ⟨d, hd, -⟩ := Option.bind_eq_some_iff.mp h
    have hvalid := t.valid _ (ZkTree.mem_of_lookup hd)
    rw [hroot, rootPath_slash_not_valid] at hvalid
    exact absurd hvalid (by simp)
  · exact h

theorem readService_answers (l : Listing) (zk : Zk) (tblkey : Bytes) (hpath : NulFree path) :
    Answers (readService l zk tblkey path) zk.tree (cStr path)
      (encodeContent dataTypeService tblkey zk.tree (cStr path)) := by
  unfold readService zkGetChdnodesWithStatus
  by_cases hne : path = []
  · rw [if_pos hne]
    exact ⟨fun h => absurd h (by simp), fun h => absurd h (by simp)⟩
  rw [if_neg hne]
  cases hget : zkGetChdnodes l zk path with
  | mk ret r =>
    obtain ⟨nodes, zk₁⟩ := r
    obtain ⟨htree, hok, hgone⟩ := zkGetChdnodes_spec hget
    by_cases hret : ret = .ok
    · obtain ⟨hmem, hnodes⟩ := hok hret
      subst hret
      dsimp only
      cases hstatus : (zkGetStatuses path nodes zk₁).1 with
      | none => exact ⟨fun h => absurd h (by simp), fun h => absurd h (by simp)⟩
      | some status =>
        refine ⟨fun _ => ⟨hmem, ?_⟩, fun h => absurd h (by simp)⟩
        have hall : List.Forall₂ (fun c st => statusAt zk.tree (childPath (cStr path) c) = some st)
            nodes status := by
          refine (List.forall₂_iff_zip.mpr ?_)
          have hread := List.forall₂_iff_zip.mp (zkGetStatuses_some path hstatus)
          refine ⟨hread.1, fun {c st} hcst => ?_⟩
          have hc : c ∈ zk.tree.children (cStr path) := by
            have := List.of_mem_zip hcst
            rw [hnodes, mem_sortBytes] at this
            exact this.1
          have := hread.2 hcst
          rw [htree] at this
          exact statusAt_child hpath (nulFree_child hc) this
        dsimp only
        rw [chdnodevalToTblval_encodeNames, filter_zip_up hall, hnodes, filter_sortBytes, encodeContent,
          if_neg (by decide), if_pos rfl, upChildren]
    · cases ret with
      | ok => exact absurd rfl hret
      | nodeNotExist => exact ⟨fun h => absurd h (by simp), fun _ => hgone rfl⟩
      | _ => exact ⟨fun h => absurd h (by simp), fun h => absurd h (by simp)⟩

theorem read_answers {t : UInt8} (ht : HasPath t) (hnul : t = dataTypeService → NulFree path) (l : Listing)
    (zk : Zk) (tblkey : Bytes) : Answers (read l zk t tblkey path) zk.tree (cStr path)
      (encodeContent t tblkey zk.tree (cStr path)) := by
  unfold read
  rcases ht with rfl | rfl | rfl
  · rw [if_pos rfl]
    exact readNode_answers zk tblkey path
  · rw [if_neg (by decide), if_pos rfl]
    exact readService_answers l zk tblkey (hnul rfl)
  · rw [if_neg (by decide), if_neg (by decide), if_pos rfl]
    exact readBatch_answers l zk tblkey path

/-! ### The two runs -/

/-- `diff_with_zk` compares with what is read for the key. -/
theorem diffWithZk_eq {t : UInt8} {idc : Bytes} (hkey : Decodes tblkey t idc path) {conf : Finset Bytes}
    {sessions : Bytes → Option Zk} (hhandle : sessionOf conf sessions idc = some zk) (l : Listing)
    (tblval : Bytes) :
    diffWithZk conf sessions l tblkey tblval = differs tblval (read l zk t tblkey path) := by
  obtain ⟨ht, hdec⟩ := hkey
  unfold diffWithZk read
  rw [hdec]
  dsimp only [Option.getD_some]
  rw [hhandle]
  rcases ht with rfl | rfl | rfl
  · rfl
  · rfl
  · rfl

theorem store_lookup {fits : Bool} {s s' : Pipe} {tblval : Bytes} (h : s.store tblkey tblval fits = (.ok, s')) :
    s'.tbl.lookup tblkey = some tblval := by
  unfold Pipe.store tblSet at h
  by_cases hsame : s.tbl.lookup tblkey = some tblval
  · rw [if_pos hsame] at h
    obtain rfl := (Prod.mk.inj h).2
    exact hsame
  · rw [if_neg hsame] at h
    cases fits with
    | true =>
      obtain rfl := (Prod.mk.inj h).2
      rw [addChangeTriggerNode_tbl]
      exact Finmap.lookup_insert _
    | false => exact absurd (Prod.mk.inj h).1 (by simp)

/-- What is in the table after a success was read. -/
theorem read_of_processRead {fits : Bool} {s s' : Pipe} {tblval : Bytes} {r : Ret × Bytes}
    (h : processRead fits s tblkey r = (.ok, s')) (hlook : s'.tbl.lookup tblkey = some tblval) :
    r = (.ok, tblval) := by
  obtain ⟨ret, val⟩ := r
  cases ret with
  | ok =>
    have := store_lookup h
    rw [hlook, Option.some.injEq] at this
    rw [this]
  | nodeNotExist =>
    obtain rfl := (Prod.mk.inj h).2
    rw [addChangeTriggerNode_tbl, Finmap.lookup_erase] at hlook
    exact absurd hlook (by simp)
  | _ => exact absurd (Prod.mk.inj h).1 (by simp)

end

/-- **The scan reports a difference exactly where there is one.**  A value was stored under a
key from the content of `x`; later `diff_with_zk` reads `y`, with the children listed in
whatever order on either side.  It says yes if and only if the node is gone, or the data, the
children that are up, or the children differ, as the type of the key has it.  The path of a
service has no NUL byte. -/
theorem scan_reports_exact_difference (conf : Finset Bytes) (sessions : Bytes → Option Zk) (l₁ l₂ : Listing)
    (x y : Zk) (fits : Bool) (s s' : Pipe) (tblkey tblval : Bytes) (t : UInt8) (idc path : Bytes)
    (hkey : Decodes tblkey t idc path) (hnul : t = dataTypeService → NulFree path)
    (hlx : WithinLimits x.tree (cStr path)) (hly : WithinLimits y.tree (cStr path))
    (hstored : process l₁ fits s x t tblkey path = (.ok, s') ∧ s'.tbl.lookup tblkey = some tblval)
    (hhandle : sessionOf conf sessions idc = some y)
    (hreads : (read l₂ y t tblkey path).1 = .ok ∨ (read l₂ y t tblkey path).1 = .nodeNotExist) :
    diffWithZk conf sessions l₂ tblkey tblval = true ↔
      cStr path ∉ y.tree.nodes ∨ Differ t x.tree y.tree (cStr path) := by
  have ht := hkey.1
  rw [process_eq] at hstored
  have hread := read_of_processRead hstored.1 hstored.2
  obtain ⟨hmem, hval⟩ := (read_answers ht hnul l₁ x tblkey).ok (by rw [hread])
  rw [hread] at hval
  rw [diffWithZk_eq hkey hhandle]
  have hy := read_answers ht hnul l₂ y tblkey
  generalize read l₂ y t tblkey path = r at hreads hy
  obtain ⟨ret, tblvalNew⟩ := r
  rcases hreads with rfl | rfl
  · obtain ⟨hmemy, rfl⟩ := hy.ok rfl
    rw [differs, decide_eq_true_iff, ne_eq, show tblval = _ from hval,
      encodeContent_eq_iff ht hmem hmemy hlx hly, not_not]
    exact ⟨Or.inr, fun h => h.resolve_left (not_not_intro hmemy)⟩
  · exact ⟨fun _ => Or.inl (hy.gone rfl), fun _ => rfl⟩

/-- The service `/a` with the one child `c` of status `st`; the service itself has the data
`0`. -/
def oneChild (st : Bytes) (h : st.length ≤ zkMaxData) : ZkTree :=
  (ZkTree.empty.put (ascii "/a") (ascii "0") StoredKeys.isValidPath_a (by decide +kernel) StoredKeys.zkParent_a).put
    (ascii "/a/c") st (by decide +kernel) h (by decide +kernel)

def childUp : ZkTree := oneChild (ascii "0") (by decide)

def childDown : ZkTree := oneChild (ascii "2") (by decide)

def scanKey : Bytes := tblkeyOf dataTypeService (ascii "i") (ascii "/a")

theorem scan_sees_child_down :
    ∃ tblval, (process sortedListing true .init (.quiet childUp) dataTypeService scanKey
      (ascii "/a")).2.tbl.lookup scanKey = some tblval ∧
    diffWithZk {ascii "i"} (fun _ => some (.quiet childDown)) reverseListing scanKey tblval = true := by
  refine ⟨encodeNames scanKey [ascii "c"], by decide +kernel, ?_⟩
  refine (scan_reports_exact_difference {ascii "i"} (fun _ => some (.quiet childDown)) sortedListing
    reverseListing (.quiet childUp) (.quiet childDown) true .init _ scanKey _ dataTypeService (ascii "i")
    (ascii "/a") (decodes_tblkeyOf (by decide) (by decide) (by decide)) (fun _ => by decide)
    ⟨by decide +kernel, by decide +kernel⟩ ⟨by decide +kernel, by decide +kernel⟩
    ⟨Prod.ext (show _ = Ret.ok by decide +kernel) rfl, by decide +kernel⟩ (if_neg (by decide)) ?_).mpr ?_
  · decide +kernel
  · exact Or.inr (Or.inr (Or.inl ⟨rfl, by decide +kernel⟩))

/-- A key whose path has a NUL byte. -/
def nulScanKey : Bytes := tblkeyOf dataTypeService (ascii "i") (ascii "/a" ++ 0 :: ascii "b")

/-- **A path with a NUL byte**: the children are those of `/a`, and what is read as the
status of each of them is the data of `/a` itself.  A child that goes down is not seen. -/
theorem nul_path_hides_child_down :
    ∃ tblval, (process sortedListing true .init (.quiet childUp) dataTypeService nulScanKey
        (ascii "/a" ++ 0 :: ascii "b")).1 = .ok ∧
      (process sortedListing true .init (.quiet childUp) dataTypeService nulScanKey
        (ascii "/a" ++ 0 :: ascii "b")).2.tbl.lookup nulScanKey = some tblval ∧
      (read sortedListing (.quiet childDown) dataTypeService nulScanKey
        (ascii "/a" ++ 0 :: ascii "b")).1 = .ok ∧
      diffWithZk {ascii "i"} (fun _ => some (.quiet childDown)) sortedListing nulScanKey tblval = false ∧
      Differ dataTypeService childUp childDown (cStr (ascii "/a" ++ 0 :: ascii "b")) := by
  refine ⟨encodeNames nulScanKey [ascii "c"], by decide +kernel, by decide +kernel, by decide +kernel,
    by decide +kernel, Or.inr (Or.inl ⟨rfl, by decide +kernel⟩)⟩

end QConf.Scan
