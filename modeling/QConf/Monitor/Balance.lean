import QConf.Monitor.Model

/-!
# How the monitors share the services

Every monitor works its share out alone.  `DoBalance` lists the services in the order of their
md5 nodes, lists the registered monitors, and takes every `M`-th service from the place on
that its own node has in that list, where `M` is the number of monitors.  The services stand in
a `std::map` and so in one order for all monitors.  The monitors are taken in the order in which
ZooKeeper returned them, which is not sorted as the agent sorts its children, and ZooKeeper
promises no order: two monitors can find themselves at the same place, each in its own list.

`services_partitioned_iff` says for which lists the monitors partition the services; with one list
for all of them they do (`Cluster.partitioned_of_equal_listings`).  The registration of a monitor is
not modelled: its own node is given with its full path, while the code keeps that path in
`zk_lock_buf_`, which has 512 bytes.
-/

namespace QConf.Monitor

/-! ### The sequence number of a monitor -/

/-- `std::stoi`; `none` where it throws. -/
def stoi (s : Bytes) : Option Int :=
  if (readDigits 10 (skipSign s) 0).2 = skipSign s ∨ leadingNumber s < -2 ^ 31 ∨ 2 ^ 31 ≤ leadingNumber s then none
  else some (leadingNumber s)

/-- `stoi(name.substr(name.size() - 10))`; `substr` throws behind the end. -/
def seqOf (name : Bytes) : Option Int :=
  if name.length < 10 then none else stoi (name.drop (name.length - 10))

/-- A number with its last `k` digits, as `%0kd` prints it. -/
def padded : Nat → Nat → Bytes
  | 0, _ => []
  | k + 1, n => padded k (n / 10) ++ [UInt8.ofNat (48 + n % 10)]

/-- The name that ZooKeeper gives to the sequential node `monitor_`. -/
def monitorName (seq : Nat) : Bytes := ascii "monitor_" ++ padded 10 seq

@[simp] theorem length_padded (k n : Nat) : (padded k n).length = k := by
  induction k generalizing n with
  | zero => rfl
  | succ k ih => simp [padded, ih]

theorem digitValue_digit {d : Nat} (hd : d < 10) : digitValue (UInt8.ofNat (48 + d)) = some d := by
  interval_cases d <;> decide

theorem readDigits_padded (k n acc : Nat) (rest : Bytes) :
    readDigits 10 (padded k n ++ rest) acc = readDigits 10 rest (acc * 10 ^ k + n % 10 ^ k) := by
  induction k generalizing n rest with
  | zero => simp [padded, Nat.mod_one]
  | succ k ih =>
    have hd : n % 10 < 10 := Nat.mod_lt _ (by decide)
    have hsplit : n % 10 ^ (k + 1) = n / 10 % 10 ^ k * 10 + n % 10 := by
      rw [Nat.pow_succ', Nat.mod_mul]
      omega
    rw [padded, List.append_assoc, ih, List.singleton_append, readDigits, digitValue_digit hd]
    dsimp only
    rw [if_pos hd, hsplit]
    refine congrArg (readDigits 10 rest) ?_
    rw [Nat.pow_succ]
    ring

/-- A printed number starts with a digit. -/
theorem padded_cons (k n : Nat) : ∃ d tl, d < 10 ∧ padded (k + 1) n = UInt8.ofNat (48 + d) :: tl := by
  induction k generalizing n with
  | zero => exact ⟨n % 10, [], Nat.mod_lt _ (by decide), rfl⟩
  | succ k ih =>
    obtain ⟨d, tl, hd, hcons⟩ := ih (n / 10)
    exact ⟨d, tl ++ [UInt8.ofNat (48 + n % 10)], hd, by rw [padded, hcons]; rfl⟩

theorem digit_plain {d : Nat} (hd : d < 10) :
    isspace (UInt8.ofNat (48 + d)) = false ∧ UInt8.ofNat (48 + d) ≠ 45 ∧ UInt8.ofNat (48 + d) ≠ 43 := by
  interval_cases d <;> decide

theorem stoi_padded {n : Nat} (hn : n < 2 ^ 31) : stoi (padded 10 n) = some (n : Int) := by
  have hread : readDigits 10 (padded 10 n) 0 = (n, []) := by
    have := readDigits_padded 10 n 0 []
    rw [List.append_nil] at this
    rw [this, Nat.mod_eq_of_lt (by omega), Nat.zero_mul, Nat.zero_add]
    rfl
  obtain ⟨d, tl, hd, hcons⟩ := padded_cons 9 n
  obtain ⟨hspace, hminus, hplus⟩ := digit_plain hd
  rw [hcons] at hread ⊢
  have h45 : (some (UInt8.ofNat (48 + d)) == some (45 : UInt8)) = false := beq_false_of_ne (by simpa using hminus)
  have h43 : (some (UInt8.ofNat (48 + d)) == some (43 : UInt8)) = false := beq_false_of_ne (by simpa using hplus)
  rw [stoi, leadingNumber, withSign, negative, skipSign, List.dropWhile_cons_of_neg (by simpa using hspace)]
  simp only [List.head?_cons, h45, h43, Bool.or_self, Bool.false_eq_true, if_false, hread]
  rw [if_neg]
  rintro (h | h | h)
  · exact List.cons_ne_nil _ _ h.symm
  · omega
  · omega

/-- A monitor's node has the number it was made with, whatever stands in front of the name. -/
theorem seqOf_monitorName (dir : Bytes) {seq : Nat} (hseq : seq < 2 ^ 31) :
    seqOf (dir ++ monitorName seq) = some (seq : Int) := by
  have hassoc : dir ++ monitorName seq = (dir ++ ascii "monitor_") ++ padded 10 seq :=
    (List.append_assoc ..).symm
  rw [hassoc, seqOf, List.length_append, length_padded, if_neg (by omega), Nat.add_sub_cancel,
    List.drop_left, stoi_padded hseq]

/-! ### `DoBalance` -/

/-- `GetMd5ToServiceFather`. -/
def getMd5ToServiceFather (r : Reads) (nodeList : Bytes) : Option (Finmap (fun _ : Bytes => Bytes)) :=
  (r.zkGetChdnodes nodeList).map (fun nodes =>
    nodes.foldl (fun m md5 =>
      match r.value (servicePath nodeList md5) with
      | none => m
      | some serviceFather => m.insert md5 serviceFather) ∅)

/-- The loop of `GetMonitors`: the place of the first node with the own number. -/
def rankLoop (mySeq : Int) : List Bytes → Nat → Option Nat
  | [], rank => some rank
  | monitor :: monitors, rank =>
    (seqOf monitor).bind (fun tmp => if tmp = mySeq then some rank else rankLoop mySeq monitors (rank + 1))

/-- `GetMonitors`: the number of monitors and the own rank. -/
def getMonitors (r : Reads) (monitorList zkLockBuf : Bytes) : Option (Nat × Nat) := do
  let nodes ← r.zkGetChdnodes monitorList
  let mySeq ← seqOf zkLockBuf
  let rank ← rankLoop mySeq nodes 0
  if rank = nodes.length then none else some (nodes.length, rank)

/-- The loop of `DoBalance` over `md5_node`, with the index and at most `fuel` rounds. -/
def balanceLoop (fathers : Finmap (fun _ : Bytes => Bytes)) (md5Node : List Bytes) (size : Nat) :
    Nat → Nat → MonitorOptions → MonitorOptions
  | 0, _, o => o
  | fuel + 1, i, o =>
    match md5Node[i]? with
    | none => o
    | some md5 =>
      let father := (fathers.lookup md5).getD []
      balanceLoop fathers md5Node size fuel (i + size) (o.own father)

/-- `DoBalance`: whether it succeeded, and the maps. -/
def doBalance (r : Reads) (nodeList monitorList zkLockBuf : Bytes) (o : MonitorOptions) :
    Bool × MonitorOptions :=
  let o := { o with serviceFatherToIp := ∅, myServiceFathers := [] }
  match getMd5ToServiceFather r nodeList with
  | none => (false, o)
  | some fathers =>
    match getMonitors r monitorList zkLockBuf with
    | none => (false, o)
    | some (size, rank) =>
      let md5Node := sortBytes fathers.keys
      (true, balanceLoop fathers md5Node size md5Node.length rank o)

/-! ### The share of one monitor -/

/-- The rank is the place of the own name. -/
theorem rankLoop_eq {seq : Nat} (hseq : seq < 2 ^ 31) : ∀ {monitors : List Bytes} {rank : Nat},
    (∀ m ∈ monitors, ∃ s < 2 ^ 31, m = monitorName s) → monitorName seq ∈ monitors →
    rankLoop seq monitors rank = some (rank + monitors.idxOf (monitorName seq)) := by
  intro monitors
  induction monitors with
  | nil => intro rank _ hmem; exact absurd hmem (List.not_mem_nil)
  | cons m monitors ih =>
    intro rank hnames hmem
    obtain ⟨s, hs, rfl⟩ := hnames m (List.mem_cons_self ..)
    have hseqOf : seqOf (monitorName s) = some (s : Int) := seqOf_monitorName [] hs
    rw [rankLoop, hseqOf, Option.bind_some]
    by_cases heq : s = seq
    · rw [heq, if_pos rfl, List.idxOf_cons_self, Nat.add_zero]
    · have hne : monitorName s ≠ monitorName seq := by
        intro hname
        have hseqOf' : seqOf (monitorName seq) = some (seq : Int) := seqOf_monitorName [] hseq
        rw [hname, hseqOf'] at hseqOf
        exact heq (Int.ofNat.inj (Option.some.inj hseqOf)).symm
      have hmem' : monitorName seq ∈ monitors := by
        rcases List.mem_cons.mp hmem with h | h
        · exact absurd h.symm hne
        · exact h
      rw [if_neg (by omega), ih (fun m hm => hnames m (List.mem_cons_of_mem _ hm)) hmem',
        List.idxOf_cons_ne _ hne]
      refine congrArg some ?_
      omega

/-- `md5_to_service_father_` is the tree's own map, whatever order the nodes came in. -/
theorem foldl_insert_lookup {fathers : Finmap (fun _ : Bytes => Bytes)} {value : Bytes → Option Bytes} :
    ∀ {nodes : List Bytes} {m : Finmap (fun _ : Bytes => Bytes)},
    (∀ md5 ∈ nodes, value md5 = fathers.lookup md5) → (∀ md5 ∈ nodes, md5 ∈ fathers) → ∀ k,
    (nodes.foldl (fun m md5 =>
      match value md5 with
      | none => m
      | some father => m.insert md5 father) m).lookup k =
      if k ∈ nodes then fathers.lookup k else m.lookup k := by
  intro nodes
  induction nodes with
  | nil => intro m _ _ k; rw [if_neg List.not_mem_nil]; rfl
  | cons md5 nodes ih =>
    intro m hvalue hmem k
    obtain ⟨father, hfather⟩ := Option.isSome_iff_exists.mp
      (Finmap.lookup_isSome.mpr (hmem md5 (List.mem_cons_self ..)))
    rw [List.foldl_cons, hvalue md5 (List.mem_cons_self ..), hfather]
    dsimp only
    rw [ih (fun d hd => hvalue d (List.mem_cons_of_mem _ hd)) (fun d hd => hmem d (List.mem_cons_of_mem _ hd))]
    by_cases hk : k ∈ nodes
    · rw [if_pos hk, if_pos (List.mem_cons_of_mem _ hk)]
    · rw [if_neg hk]
      by_cases heq : k = md5
      · rw [heq, if_pos (List.mem_cons_self ..), Finmap.lookup_insert, hfather]
      · rw [Finmap.lookup_insert_of_ne _ heq, if_neg (by simp [heq, hk])]

/-- The services the loop takes: those at the places `i`, `i + size`, `i + 2 * size` and so on. -/
theorem mem_balanceLoop {fathers : Finmap (fun _ : Bytes => Bytes)} {md5Node : List Bytes} {size : Nat}
    (hsize : 0 < size) {f : Bytes} : ∀ {fuel i : Nat} {o : MonitorOptions}, md5Node.length ≤ i + fuel →
    (f ∈ (balanceLoop fathers md5Node size fuel i o).myServiceFathers ↔
      f ∈ o.myServiceFathers ∨ ∃ k md5, md5Node[i + k * size]? = some md5 ∧ f = (fathers.lookup md5).getD []) := by
  intro fuel
  induction fuel with
  | zero =>
    intro i o hlen
    have hnone : ∀ k, md5Node[i + k * size]? = none := fun k =>
      List.getElem?_eq_none (by omega)
    simp [balanceLoop, hnone]
  | succ fuel ih =>
    intro i o hlen
    rw [balanceLoop]
    cases hi : md5Node[i]? with
    | none =>
      have hnone : ∀ k, md5Node[i + k * size]? = none := fun k =>
        List.getElem?_eq_none ((List.getElem?_eq_none_iff.mp hi).trans (Nat.le_add_right ..))
      simp [hnone]
    | some md5 =>
      dsimp only
      rw [ih (by omega), MonitorOptions.own]
      dsimp only
      rw [List.mem_append, List.mem_singleton, or_assoc]
      refine or_congr_right ⟨?_, ?_⟩
      · rintro (rfl | ⟨k, d, hd, rfl⟩)
        · exact ⟨0, md5, by simpa using hi, rfl⟩
        · refine ⟨k + 1, d, ?_, rfl⟩
          rw [← hd]
          refine congrArg (md5Node[·]?) ?_
          ring
      · rintro ⟨k, d, hd, rfl⟩
        cases k with
        | zero =>
          rw [Nat.zero_mul, Nat.add_zero, hi] at hd
          exact Or.inl (by rw [Option.some.inj hd])
        | succ k =>
          refine Or.inr ⟨k, d, ?_, rfl⟩
          rw [← hd]
          refine congrArg (md5Node[·]?) ?_
          ring

/-! ### All monitors -/

/-- The tree of the monitors and what each of them is told about it.  The monitors are known
by their sequence numbers.  Each one may get the children of a node in an order of its own. -/
structure Cluster where
  nodeList : Bytes
  monitorList : Bytes
  /-- the md5 nodes with the services they stand for -/
  fathers : Finmap (fun _ : Bytes => Bytes)
  seqs : Finset Nat
  /-- the answers to the calls of one monitor -/
  reads : Nat → Reads
  /-- the registered monitors, in the order one monitor gets them -/
  listing : Nat → List Bytes
  seqs_lt : ∀ s ∈ seqs, s < 2 ^ 31
  distinct : ∀ d ∈ fathers.keys, ∀ d' ∈ fathers.keys, fathers.lookup d = fathers.lookup d' → d = d'
  md5_read : ∀ s ∈ seqs, ((reads s).zkGetChdnodes nodeList).map List.toFinset = some fathers.keys
  father_read : ∀ s ∈ seqs, ∀ d ∈ fathers.keys, (reads s).value (servicePath nodeList d) = fathers.lookup d
  monitors_read : ∀ s ∈ seqs, (reads s).zkGetChdnodes monitorList = some (listing s)
  listing_nodup : ∀ s ∈ seqs, (listing s).Nodup
  listing_names : ∀ s ∈ seqs, (listing s).toFinset = seqs.image monitorName

namespace Cluster

variable (c : Cluster) (o : Nat → MonitorOptions) {s : Nat}

/-- The result of `DoBalance` on the monitor with the number `s`. -/
def balanced (s : Nat) : Bool × MonitorOptions :=
  doBalance (c.reads s) c.nodeList c.monitorList (servicePath c.monitorList (monitorName s)) (o s)

/-- The services in the order of their md5 nodes. -/
def md5Node : List Bytes := sortBytes c.fathers.keys

theorem monitorName_inj {s t : Nat} (hs : s < 2 ^ 31) (ht : t < 2 ^ 31) (h : monitorName s = monitorName t) :
    s = t := by
  have hseq := seqOf_monitorName [] hs
  rw [h, seqOf_monitorName [] ht] at hseq
  exact (Int.ofNat.inj (Option.some.inj hseq)).symm

theorem mem_listing (hs : s ∈ c.seqs) {m : Bytes} : m ∈ c.listing s ↔ ∃ t ∈ c.seqs, monitorName t = m := by
  rw [← List.mem_toFinset, c.listing_names s hs, Finset.mem_image]

theorem own_mem_listing (hs : s ∈ c.seqs) : monitorName s ∈ c.listing s :=
  (c.mem_listing hs).mpr ⟨s, hs, rfl⟩

theorem listing_length (hs : s ∈ c.seqs) : (c.listing s).length = c.seqs.card := by
  rw [← List.toFinset_card_of_nodup (c.listing_nodup s hs), c.listing_names s hs, Finset.card_image_of_injOn]
  exact fun a ha b hb hab => monitorName_inj (c.seqs_lt a ha) (c.seqs_lt b hb) hab

theorem getMd5_eq (hs : s ∈ c.seqs) :
    getMd5ToServiceFather (c.reads s) c.nodeList = some c.fathers := by
  obtain ⟨nodes, hnodes, hkeys⟩ := Option.map_eq_some_iff.mp (c.md5_read s hs)
  have hmem : ∀ d, d ∈ nodes ↔ d ∈ c.fathers := by
    intro d
    rw [← List.mem_toFinset, hkeys, Finmap.mem_keys]
  rw [getMd5ToServiceFather, hnodes, Option.map_some]
  refine congrArg some ?_
  refine Finmap.ext_lookup fun k => ?_
  rw [foldl_insert_lookup (fun d hd => c.father_read s hs d (Finmap.mem_keys.mpr ((hmem d).mp hd)))
    (fun d hd => (hmem d).mp hd)]
  by_cases hk : k ∈ nodes
  · rw [if_pos hk]
  · rw [if_neg hk, Finmap.lookup_empty]
    exact (Finmap.lookup_eq_none.mpr (fun h => hk ((hmem k).mpr h))).symm

theorem getMonitors_eq (hs : s ∈ c.seqs) :
    getMonitors (c.reads s) c.monitorList (servicePath c.monitorList (monitorName s)) =
      some (c.seqs.card, (c.listing s).idxOf (monitorName s)) := by
  have hmem := c.own_mem_listing hs
  have hnames : ∀ m ∈ c.listing s, ∃ t < 2 ^ 31, m = monitorName t := by
    intro m hm
    obtain ⟨t, ht, rfl⟩ := (c.mem_listing hs).mp hm
    exact ⟨t, c.seqs_lt t ht, rfl⟩
  have hlock : servicePath c.monitorList (monitorName s) =
      (c.monitorList ++ [slash]) ++ monitorName s := by simp [servicePath]
  have hlt : (c.listing s).idxOf (monitorName s) < (c.listing s).length := List.idxOf_lt_length_of_mem hmem
  simp only [getMonitors, c.monitors_read s hs, hlock, seqOf_monitorName _ (c.seqs_lt s hs),
    rankLoop_eq (c.seqs_lt s hs) hnames hmem, Option.bind_eq_bind, Option.bind_some, Nat.zero_add]
  rw [if_neg (Nat.ne_of_lt hlt), c.listing_length hs]

/-- In a list without repetitions, an element stands at its first place only. -/
theorem getElem?_eq_iff_idxOf {l : List Bytes} (hl : l.Nodup) {a : Bytes} (ha : a ∈ l) {j : Nat} :
    l[j]? = some a ↔ j = l.idxOf a := by
  constructor
  · intro h
    obtain ⟨hj, rfl⟩ := List.getElem?_eq_some_iff.mp h
    exact (hl.idxOf_getElem j hj).symm
  · rintro rfl
    rw [List.getElem?_eq_getElem (List.idxOf_lt_length_of_mem ha), List.getElem_idxOf]

/-- **One monitor's share**: the services whose place has, divided by the number of monitors, the
remainder at which the monitor finds its own name. -/
theorem mem_balanced (hs : s ∈ c.seqs) {f : Bytes} : f ∈ (c.balanced o s).2.myServiceFathers ↔
    ∃ i d, c.md5Node[i]? = some d ∧ c.fathers.lookup d = some f ∧
      (c.listing s)[i % c.seqs.card]? = some (monitorName s) := by
  have hmem := c.own_mem_listing hs
  have hcard : 0 < c.seqs.card := Finset.card_pos.mpr ⟨s, hs⟩
  have hrank : (c.listing s).idxOf (monitorName s) < c.seqs.card := by
    rw [← c.listing_length hs]
    exact List.idxOf_lt_length_of_mem hmem
  have hlookup : ∀ (i : Nat) (d : Bytes), c.md5Node[i]? = some d →
      (f = (c.fathers.lookup d).getD [] ↔ c.fathers.lookup d = some f) := by
    intro i d hd
    have hkey : d ∈ c.fathers := by
      have := List.mem_of_getElem? hd
      rwa [md5Node, mem_sortBytes, Finmap.mem_keys] at this
    obtain ⟨g, hg⟩ := Option.isSome_iff_exists.mp (Finmap.lookup_isSome.mpr hkey)
    rw [hg, Option.getD_some, Option.some.injEq]
    exact eq_comm
  unfold balanced doBalance
  rw [c.getMd5_eq hs, c.getMonitors_eq hs]
  dsimp only
  rw [mem_balanceLoop hcard (Nat.le_add_left ..)]
  simp only [List.not_mem_nil, false_or, getElem?_eq_iff_idxOf (c.listing_nodup s hs) hmem]
  constructor
  · rintro ⟨k, d, hd, hf⟩
    refine ⟨_, d, hd, (hlookup _ d hd).mp hf, ?_⟩
    rw [Nat.add_mul_mod_self_right, Nat.mod_eq_of_lt hrank]
  · rintro ⟨i, d, hd, hf, hi⟩
    refine ⟨i / c.seqs.card, d, ?_, (hlookup i d hd).mpr hf⟩
    rw [← hi, Nat.mul_comm, Nat.mod_add_div]
    exact hd

/-- The service at place `i` is owned by `s` exactly if `s` finds itself at the remainder of `i`. -/
theorem owned_iff {i : Nat} {d f : Bytes} (hd : c.md5Node[i]? = some d) (hf : c.fathers.lookup d = some f) (s : Nat) :
    s ∈ c.seqs ∧ f ∈ (c.balanced o s).2.myServiceFathers ↔
      s ∈ c.seqs ∧ (c.listing s)[i % c.seqs.card]? = some (monitorName s) := by
  refine and_congr_right fun hs => ?_
  rw [c.mem_balanced o hs]
  constructor
  · rintro ⟨j, d', hd', hf', hj⟩
    have hkey : ∀ {d}, c.fathers.lookup d = some f → d ∈ c.fathers.keys := fun h =>
      Finmap.mem_keys.mpr (Finmap.mem_iff.mpr ⟨f, h⟩)
    rw [c.distinct d' (hkey hf') d (hkey hf) (hf'.trans hf.symm)] at hd'
    have hij : j = i := by
      obtain ⟨hjlt, -⟩ := List.getElem?_eq_some_iff.mp hd'
      exact (List.getElem?_inj hjlt (nodup_sortBytes _)).mp (hd'.trans hd.symm)
    rwa [← hij]
  · exact fun h => ⟨i, d, hd, hf, h⟩

theorem length_md5Node : c.md5Node.length = c.fathers.keys.card := sortBytes_length _

/-- Every service has a place. -/
theorem place_of_service {d f : Bytes} (hf : c.fathers.lookup d = some f) :
    ∃ i < c.fathers.keys.card, c.md5Node[i]? = some d := by
  have hmem : d ∈ c.md5Node := by
    rw [md5Node, mem_sortBytes, Finmap.mem_keys]
    exact Finmap.mem_iff.mpr ⟨f, hf⟩
  obtain ⟨i, hi⟩ := List.mem_iff_getElem?.mp hmem
  exact ⟨i, c.length_md5Node ▸ (List.getElem?_eq_some_iff.mp hi).1, hi⟩

/-- In one listing each place is that of one monitor. -/
theorem place_of_equal_listings (hne : c.seqs.Nonempty)
    (hsame : ∀ s ∈ c.seqs, ∀ s' ∈ c.seqs, c.listing s = c.listing s') (i : Nat) :
    ∃! s, s ∈ c.seqs ∧ (c.listing s)[i % c.seqs.card]? = some (monitorName s) := by
  obtain ⟨s₀, hs₀⟩ := hne
  have hlt : i % c.seqs.card < (c.listing s₀).length := by
    rw [c.listing_length hs₀]
    exact Nat.mod_lt _ (Finset.card_pos.mpr ⟨s₀, hs₀⟩)
  have hat := List.getElem?_eq_getElem hlt
  have hname : (c.listing s₀)[i % c.seqs.card] ∈ c.seqs.image monitorName := by
    rw [← c.listing_names s₀ hs₀, List.mem_toFinset]
    exact List.getElem_mem _
  obtain ⟨s, hs, hname⟩ := Finset.mem_image.mp hname
  refine ⟨s, ⟨hs, by rw [hsame s hs s₀ hs₀, hat, hname]⟩, ?_⟩
  rintro s' ⟨hs', hat'⟩
  rw [hsame s' hs' s₀ hs₀, hat, ← hname, Option.some.injEq] at hat'
  exact (monitorName_inj (c.seqs_lt s hs) (c.seqs_lt s' hs') hat').symm

/-- **Monitors that get one listing partition the services.** -/
theorem partitioned_of_equal_listings (hne : c.seqs.Nonempty)
    (hsame : ∀ s ∈ c.seqs, ∀ s' ∈ c.seqs, c.listing s = c.listing s') {d f : Bytes}
    (hf : c.fathers.lookup d = some f) : ∃! s, s ∈ c.seqs ∧ f ∈ (c.balanced o s).2.myServiceFathers := by
  obtain ⟨i, -, hi⟩ := c.place_of_service hf
  exact (existsUnique_congr (c.owned_iff o hi hf)).mpr (c.place_of_equal_listings hne hsame i)

end Cluster

/-- **When the monitors partition the services.**  Every service is in `my_service_fathers` of
exactly one monitor if and only if, for the place of every service in the order of the md5
nodes, exactly one monitor finds its own name at the remainder of that place in the list that
ZooKeeper gave it. -/
theorem services_partitioned_iff (c : Cluster) (o : Nat → MonitorOptions) :
    (∀ d f, c.fathers.lookup d = some f →
      ∃! s, s ∈ c.seqs ∧ f ∈ (c.balanced o s).2.myServiceFathers) ↔
    ∀ i < c.fathers.keys.card,
      ∃! s, s ∈ c.seqs ∧ (c.listing s)[i % c.seqs.card]? = some (monitorName s) := by
  constructor
  · intro hpart i hi
    have hlt : i < c.md5Node.length := by rwa [c.length_md5Node]
    have hd : c.md5Node[i]? = some c.md5Node[i] := List.getElem?_eq_getElem hlt
    obtain ⟨f, hf⟩ : ∃ f, c.fathers.lookup c.md5Node[i] = some f := by
      refine Option.isSome_iff_exists.mp (Finmap.lookup_isSome.mpr ?_)
      rw [← Finmap.mem_keys, ← mem_sortBytes]
      exact List.getElem_mem _
    exact (existsUnique_congr (c.owned_iff o hd hf)).mp (hpart _ f hf)
  · intro hlist d f hf
    obtain ⟨i, hlt, hi⟩ := c.place_of_service hf
    exact (existsUnique_congr (c.owned_iff o hi hf)).mpr (hlist i hlt)

/-- Three services and the monitors `4` and `7`, with one listing that is not sorted. -/
def oneListing : Cluster where
  nodeList := ascii "/md5"
  monitorList := ascii "/monitors"
  fathers := ((Finmap.singleton (ascii "a") (ascii "/s")).insert (ascii "b") (ascii "/t")).insert (ascii "c") (ascii "/u")
  seqs := {4, 7}
  reads _ :=
    { children := fun p =>
        if p = ascii "/md5" then some [ascii "c", ascii "a", ascii "b"] else some [monitorName 7, monitorName 4]
      value := fun p =>
        if p = ascii "/md5/a" then some (ascii "/s")
        else if p = ascii "/md5/b" then some (ascii "/t") else some (ascii "/u") }
  listing _ := [monitorName 7, monitorName 4]
  seqs_lt := by decide
  distinct := by decide +kernel
  md5_read := by decide +kernel
  father_read := by decide +kernel
  monitors_read := by decide +kernel
  listing_nodup := by decide +kernel
  listing_names := by decide +kernel

/-- The monitor `7` takes the first service and the third, and `4` the second. -/
theorem one_listing_partitioned : (oneListing.balanced (fun _ => .empty) 7).2.myServiceFathers = [ascii "/s", ascii "/u"] ∧
    (oneListing.balanced (fun _ => .empty) 4).2.myServiceFathers = [ascii "/t"] ∧
    ∀ d f, oneListing.fathers.lookup d = some f →
      ∃! s, s ∈ oneListing.seqs ∧ f ∈ (oneListing.balanced (fun _ => .empty) s).2.myServiceFathers :=
  ⟨by decide +kernel, by decide +kernel, (services_partitioned_iff oneListing _).mpr
    (fun i _ => oneListing.place_of_equal_listings (by decide) (fun _ _ _ _ => rfl) i)⟩

/-- Two services and the monitors `0` and `1`, each of which finds its own name in front. -/
def twoMonitors : Cluster where
  nodeList := ascii "/md5"
  monitorList := ascii "/monitors"
  fathers := (Finmap.singleton (ascii "a") (ascii "/s")).insert (ascii "b") (ascii "/t")
  seqs := {0, 1}
  reads s :=
    { children := fun p =>
        if p = ascii "/md5" then some [ascii "a", ascii "b"]
        else some [monitorName s, monitorName (1 - s)]
      value := fun p => if p = ascii "/md5/a" then some (ascii "/s") else some (ascii "/t") }
  listing s := [monitorName s, monitorName (1 - s)]
  seqs_lt := by decide
  distinct := by decide +kernel
  md5_read := by decide +kernel
  father_read := by decide +kernel
  monitors_read := by decide +kernel
  listing_nodup := by decide +kernel
  listing_names := by decide +kernel

/-- Both monitors take the first service, and nobody takes the second. -/
theorem second_service_unowned : twoMonitors.seqs = {0, 1} ∧
    (twoMonitors.balanced (fun _ => .empty) 0).1 = true ∧
    (twoMonitors.balanced (fun _ => .empty) 0).2.myServiceFathers = [ascii "/s"] ∧
    (twoMonitors.balanced (fun _ => .empty) 1).1 = true ∧
    (twoMonitors.balanced (fun _ => .empty) 1).2.myServiceFathers = [ascii "/s"] := by
  decide +kernel

end QConf.Monitor
