import QConf.Manager.Protocol

/-!
# The calls of the manager among others

A begin, a commit and a rollback keep to what a process may do (`Within`), whatever other
managers do at the same time and whatever fails.

* A begin is the only writer for its id; until it writes the backlink, nobody may delete
  its content nodes (`Ready`).
* A rollback has read the backlink, so the begin is over and no new client will point at
  the id; once the clients are deleted, none is left that does (`Cleared`).
* A commit decodes the whole content or nothing (`Cut.pairs`).
-/

namespace QConf.Protocol

open RelyGuarantee
open Manager (ContentFits HostName NotifyNode grayDeserializeContent grayRecords grayPairs contentPiece pieceCount
  grayContentMaxSize backlinkContent zkPath pathNormalize parentNode normalizeNodes normalized
  mem_normalized normalized_value normalized_keys)

/-! ### Begin -/

section

variable {book : Bytes → Option Entry} {own : Bytes → Prop} {P : World → Prop}

theorem holds_grayCheckNodes (hst : Firm book own P) (nodes : BytesMap) : ∀ (raws : List Bytes) (newNodes : BytesMap),
    Holds book own P (Program.grayCheckNodes nodes raws newNodes)
      (fun r w => (∀ n, r = some n → normalizeNodes nodes raws newNodes = some n) ∧ P w) := by
  intro raws
  induction raws with
  | nil => exact fun newNodes => Keeps.done hst fun _ _ hp => ⟨fun _ h => h, hp⟩
  | cons raw raws ih =>
    intro newNodes
    rw [Program.grayCheckNodes, normalizeNodes]
    have hnone : ∀ x, Holds book own P (.done none : Zoo (Option BytesMap))
        (fun r w => (∀ n, r = some n → x = some n) ∧ P w) :=
      fun x => Keeps.done hst fun _ _ hp => ⟨fun _ h => absurd h (by simp), hp⟩
    cases pathNormalize raw with
    | none => exact hnone _
    | some zpath =>
      refine Keeps.bind (holds_zkExist hst zpath) fun r => ?_
      obtain ⟨ret, exist⟩ := r
      cases ret with
      | ok =>
        cases exist with
        | false => exact hnone _
        | true =>
          dsimp only
          split
          · exact hnone _
          · exact ih _
      | _ => cases exist <;> exact hnone _

theorem holds_zkGrayCheckNodes (hst : Firm book own P) (rawNodes : BytesMap) :
    Holds book own P (Program.zkGrayCheckNodes rawNodes)
      (fun r w => (∀ n, r = some n → normalized rawNodes = some n) ∧ P w) := by
  rw [Program.zkGrayCheckNodes, normalized]
  split
  · exact Keeps.done hst fun _ _ hp => ⟨fun _ h => absurd h (by simp), hp⟩
  · exact holds_grayCheckNodes hst rawNodes _ _

theorem holds_grayCheckClients (hst : Firm book own P) : ∀ clients : List Bytes,
    Holds book own P (Program.grayCheckClients clients) (fun _ => P) := by
  intro clients
  induction clients with
  | nil => exact Keeps.done hst fun _ _ hp => hp
  | cons client clients ih =>
    refine Keeps.bind (holds_zkExist hst (clientNode client)) fun r => ?_
    obtain ⟨ret, exist⟩ := r
    cases ret with
    | ok =>
      cases exist with
      | false => exact ih
      | true => exact Keeps.done hst fun _ _ hp => hp
    | _ => cases exist <;> exact Keeps.done hst fun _ _ hp => hp

theorem holds_zkGrayCheckChients (hst : Firm book own P) (clients : List Bytes) :
    Holds book own P (Program.zkGrayCheckChients clients) (fun _ => P) := by
  rw [Program.zkGrayCheckChients]
  split
  · exact Keeps.done hst fun _ _ hp => hp
  · exact holds_grayCheckClients hst clients

/-- A begin at the id `g` that has written the first `n` content nodes. -/
def Ready (g : Bytes) (n : Nat) (w : World) : Prop :=
  ¬ w.linked g ∧ ∀ j < n, contentNode g j ∈ w.tree.nodes

/-- The others link no id of the program, and delete only content nodes of ids that are linked. -/
theorem firm_ready {g : Bytes} (hown : own g) (n : Nat) : Firm book own (Ready g n) := by
  rintro w w' - - hr ⟨hnl, hall⟩
  refine ⟨fun hl => ?_, fun j hj => ?_⟩
  · rcases hr.links g hl with h | h
    · exact hnl h
    · exact h hown
  · by_contra hno
    exact hnl (hr.gone g j (hall j hj) hno).1

variable {g : Bytes} {e : Entry}

theorem parentNode_append {p name : Bytes} (h : slash ∉ name) : parentNode (p ++ slash :: name) = p := by
  rw [parentNode, splitLast_append h]

/-- A new node that is no backlink of the id. -/
theorem Ready.inserted {n : Nat} {w w' : World} {p v : Bytes} (hi : Sound book w) (h : Ready g n w)
    (hin : Inserted p v w.tree w'.tree) (hl : Linked w w') (hp : p ≠ backlinkNode g) : Ready g n w' := by
  refine ⟨fun hl' => ?_, fun j hj => ?_⟩
  · rcases (hl g).mp hl' with hg | hg
    · exact h.1 hg
    · rw [← Finmap.lookup_isSome, hin.other hp.symm, Finmap.lookup_isSome] at hg
      exact h.1 (hi.linked_of_mem hg)
  · rw [← Finmap.lookup_isSome, hin.other (fun he => hin.fresh (he ▸ h.2 j hj)), Finmap.lookup_isSome]
    exact h.2 j hj

section

variable {sec usec : Nat}

/-- One content node of a begin. -/
theorem holds_createPiece (hown : own (grayGenerateId sec usec)) (hbook : book (grayGenerateId sec usec) = some e)
    {i : Nat} (hi : i < pieceCount e.content) :
    Holds book own (Ready (grayGenerateId sec usec) i)
      (Program.zkCreate (contentNode (grayGenerateId sec usec) i) (contentPiece e.content (i * grayContentMaxSize)))
      (fun ret w => ret = .ok → Ready (grayGenerateId sec usec) (i + 1) w) := by
  have hg := (grayGenerateId_plain sec usec).not_mem_slash
  have hcstr := cStr_of_nulFree (isValidPath_nulFree (contentNode_valid sec usec i))
  refine holds_zkCreateFuel (firm_ready hown i) (firm_ready hown (i + 1)) ?_ ?_ _
  · intro q hq
    rw [contentNode, parentNode_append (slash_not_mem_piece hg i), cStr_of_nulFree (by decide)] at hq
    exact not_notifyNode_of_above (Or.inr (Or.inl hq))
  · intro w w' hsound hready hin hl
    rw [hcstr] at hin
    refine ⟨within_inserted hsound hl hin (fun c hc => ?_) (fun g' j hc => ?_) (fun g' hc => ?_), ?_⟩
    · exact absurd hc.symm (clientNode_ne_contentNode _ _ _)
    · obtain ⟨rfl, rfl⟩ := contentNode_inj₂ hc
      exact ⟨hown, e, hbook, hi, rfl⟩
    · exact absurd hc (contentNode_ne_backlinkNode _ _ _)
    · have hkeep := hready.inserted hsound hin hl (contentNode_ne_backlinkNode _ _ _)
      refine ⟨hkeep.1, fun j hj => ?_⟩
      rcases Nat.lt_succ_iff_lt_or_eq.mp hj with hj | rfl
      · exact hkeep.2 j hj
      · exact ZkTree.mem_of_lookup hin.self

/-- The content nodes of a begin, from the number `i` on. -/
theorem holds_createContent (hown : own (grayGenerateId sec usec)) (hbook : book (grayGenerateId sec usec) = some e) :
    ∀ (k left i : Nat), i + (k + 1) = pieceCount e.content → k < left →
      Holds book own (Ready (grayGenerateId sec usec) i)
        (Program.createContent (grayGenerateId sec usec) e.content left i (i * grayContentMaxSize))
        (fun ret w => ret = .ok → Ready (grayGenerateId sec usec) (pieceCount e.content) w) := by
  have hshort : ContentFits e.content := e.short
  intro k
  induction k with
  | zero =>
    intro left i hi hleft
    obtain ⟨left, rfl⟩ : ∃ l, left = l + 1 := ⟨left - 1, by omega⟩
    rw [Program.createContent]
    refine Keeps.bind (holds_createPiece hown hbook (by omega)) fun ret => ?_
    have hst : Firm book own (fun w => ret = .ok → Ready (grayGenerateId sec usec) (i + 1) w) :=
      fun w w' h1 h2 hr h hret => firm_ready hown _ w w' h1 h2 hr (h hret)
    have hend : ¬ (i + 1) * grayContentMaxSize < e.content.length := by
      have := Manager.length_le_pieces e.content
      rw [← hi] at this
      exact Nat.not_lt.mpr this
    cases ret with
    | ok =>
      dsimp only
      rw [hshort.index (by omega), if_neg hend, ← hi]
      exact Keeps.done hst fun _ _ h _ => h rfl
    | _ => exact Keeps.done hst fun _ _ _ h => absurd h (by simp)
  | succ k ih =>
    intro left i hi hleft
    obtain ⟨left, rfl⟩ : ∃ l, left = l + 1 := ⟨left - 1, by omega⟩
    rw [Program.createContent]
    refine Keeps.bind (holds_createPiece hown hbook (by omega)) fun ret => ?_
    have hst : Firm book own (fun w => ret = .ok → Ready (grayGenerateId sec usec) (i + 1) w) :=
      fun w w' h1 h2 hr h hret => firm_ready hown _ w w' h1 h2 hr (h hret)
    have hmore : (i + 1) * grayContentMaxSize < e.content.length := Manager.pieces_lt_length (by omega)
    cases ret with
    | ok =>
      dsimp only
      rw [hshort.index (by omega), if_pos hmore]
      exact (ih left (i + 1) (by omega) (by omega)).weaken hst (fun _ _ h => h rfl) (fun _ _ _ h => h)
    | _ => exact Keeps.done hst fun _ _ _ h => absurd h (by simp)

/-- The client nodes of a begin. -/
theorem holds_createClients (hown : own g) (hbook : book g = some e) : ∀ clients : List Bytes,
    (∀ c ∈ clients, c ∈ e.clients) →
      Holds book own (Ready g (pieceCount e.content)) (Program.createClients g clients)
        (fun ret w => ret = .ok → Ready g (pieceCount e.content) w) := by
  intro clients
  induction clients with
  | nil => exact fun _ => Keeps.done (firm_ready hown _) fun _ _ h _ => h
  | cons c clients ih =>
    intro hsub
    have hc := hsub c List.mem_cons_self
    have hhost := e.hosts c hc
    rw [Program.createClients]
    refine Keeps.bind (holds_zkCreateFuel (firm_ready hown _) (firm_ready hown (pieceCount e.content)) ?_ ?_ _)
      fun ret => ?_
    · intro q hq
      rw [clientNode, parentNode_append hhost.1, cStr_of_nulFree (by decide)] at hq
      exact not_notifyNode_of_above (Or.inl hq)
    · intro w w' hsound hready hin hl
      rw [cStr_of_nulFree (Manager.clientNode_nulFree hhost.2.1)] at hin
      refine ⟨within_inserted hsound hl hin (fun d hd => ?_) (fun g' j hd => ?_) (fun g' hd => ?_),
        hready.inserted hsound hin hl (clientNode_ne_backlinkNode _ _)⟩
      · rw [← clientNode_inj hd]
        exact ⟨hown, hready.1, e, hbook, hc, hready.2⟩
      · exact absurd hd (clientNode_ne_contentNode _ _ _)
      · exact absurd hd (clientNode_ne_backlinkNode _ _)
    · have hst : Firm book own (fun w => ret = .ok → Ready g (pieceCount e.content) w) :=
        fun w w' h1 h2 hr h hret => firm_ready hown _ w w' h1 h2 hr (h hret)
      cases ret with
      | ok =>
        exact (ih fun d hd => hsub d (List.mem_cons_of_mem _ hd)).weaken hst (fun _ _ h => h rfl) (fun _ _ _ h => h)
      | _ => exact Keeps.done hst fun _ _ _ h => absurd h (by simp)

/-- **A begin among other processes**: the content, the clients, the backlink, in this order. -/
theorem holds_grayWrite (hown : own (grayGenerateId sec usec)) (hbook : book (grayGenerateId sec usec) = some e) :
    Holds book own (Ready (grayGenerateId sec usec) 0)
      (Program.grayWrite e.content e.clients (grayGenerateId sec usec)) (fun _ _ => True) := by
  have hpos := Manager.pieceCount_pos e.content_ne_nil
  have hleft : pieceCount e.content - 1 < 2 ^ 32 := by
    have h1 : ContentFits e.content := e.short
    have h2 := Manager.pieces_lt_length (show pieceCount e.content - 1 < pieceCount e.content by omega)
    rw [ContentFits] at h1
    rw [show grayContentMaxSize = 102400 from rfl] at h1 h2
    omega
  have hcontent := holds_createContent hown hbook (pieceCount e.content - 1) (2 ^ 32) 0 (by omega) hleft
  rw [Nat.zero_mul] at hcontent
  have hst : ∀ ret : Ret, Firm book own
      (fun w => ret = .ok → Ready (grayGenerateId sec usec) (pieceCount e.content) w) :=
    fun ret w w' h1 h2 hr h hret => firm_ready hown _ w w' h1 h2 hr (h hret)
  have hend : ∀ ret ret' : Ret, Holds book own
      (fun w => ret = .ok → Ready (grayGenerateId sec usec) (pieceCount e.content) w)
      (.done ret' : Zoo Ret) (fun _ _ => True) := fun ret _ => Keeps.done (hst ret) fun _ _ _ => trivial
  rw [Program.grayWrite]
  refine Keeps.bind hcontent fun ret => ?_
  cases ret with
  | ok =>
    refine Keeps.weaken (Keeps.bind (holds_createClients hown hbook e.clients fun _ h => h) fun ret => ?_)
      (hst .ok) (fun _ _ h => h rfl) (fun _ _ _ h => h)
    cases ret with
    | ok =>
      have hg := (grayGenerateId_plain sec usec).not_mem_slash
      have hlink : ∀ fuel, Holds book own (Ready (grayGenerateId sec usec) (pieceCount e.content))
          (Program.zkCreateFuel fuel (backlinkNode (grayGenerateId sec usec)) (backlinkContent e.clients))
          (fun ret _ => ret = .ok → True) := by
        refine holds_zkCreateFuel (firm_ready hown _) firm_true ?_ ?_
        · intro q hq
          rw [backlinkNode, parentNode_append hg, cStr_of_nulFree (by decide)] at hq
          exact not_notifyNode_of_above (Or.inr (Or.inr hq))
        · intro w w' hsound hready hin hl
          rw [Manager.cStr_backlinkNode] at hin
          refine ⟨within_inserted hsound hl hin (fun d hd => ?_) (fun g' j hd => ?_) (fun g' hd => ?_), trivial⟩
          · exact absurd hd.symm (clientNode_ne_backlinkNode _ _)
          · exact absurd hd.symm (contentNode_ne_backlinkNode _ _ _)
          · obtain rfl := backlinkNode_inj hd
            exact ⟨hown, e, hbook, rfl⟩
      refine Keeps.weaken (Keeps.bind (hlink _) fun ret => ?_) (hst .ok) (fun _ _ h => h rfl) (fun _ _ _ h => h)
      have hlast : ∀ ret' : Ret, Holds book own (fun _ => ret = .ok → True) (.done ret' : Zoo Ret) (fun _ _ => True) :=
        fun _ => Keeps.done (stable_const _) fun _ _ _ => trivial
      cases ret <;> exact hlast _
    | _ => exact hend _ _
  | _ => exact hend _ _

/-- **`zk_gray_begin` among other processes**, if it is the only one with its id. -/
theorem holds_zkGrayBegin {rawNodes : BytesMap} {clients : List Bytes} (hown : own (grayGenerateId sec usec))
    (hbook : ∀ nodes, normalized rawNodes = some nodes →
      ∃ e, book (grayGenerateId sec usec) = some e ∧ e.nodes = nodes ∧ e.clients = clients) :
    Holds book own (fun w => ¬ w.linked (grayGenerateId sec usec))
      (Program.zkGrayBegin rawNodes clients sec usec) (fun _ _ => True) := by
  have hst : Firm book own (Ready (grayGenerateId sec usec) 0) := firm_ready hown 0
  have hend : ∀ ret : Ret, Holds book own (Ready (grayGenerateId sec usec) 0) (.done ret : Zoo Ret) (fun _ _ => True) :=
    fun _ => Keeps.done hst fun _ _ _ => trivial
  have hready : ∀ w : World, ¬ w.linked (grayGenerateId sec usec) → Ready (grayGenerateId sec usec) 0 w :=
    fun w h => ⟨h, fun j hj => absurd hj (Nat.not_lt_zero j)⟩
  refine Keeps.weaken ?_ (fun w w' h1 h2 hr h => (hst w w' h1 h2 hr (hready w h)).1) (fun w _ h => hready w h)
    (fun _ _ _ h => h)
  rw [Program.zkGrayBegin]
  refine Keeps.bind (holds_zkGrayCheckNodes hst rawNodes) fun r => Keeps.of_imp (fun hr => ?_) hst
  cases r with
  | none => exact hend _
  | some nodes =>
    obtain ⟨e, he, rfl, rfl⟩ := hbook nodes (hr nodes rfl)
    refine Keeps.bind (holds_zkGrayCheckChients hst e.clients) fun ok => ?_
    cases ok with
    | false => exact hend _
    | true =>
      dsimp only
      rw [e.serialize]
      exact holds_grayWrite hown he

end

end

/-! ### What a begin is given -/

section

variable {rawNodes nodes newNodes newNodes' : BytesMap} {clients raws : List Bytes}

/-- Arguments of a begin: the lengths can be read back, the clients are hosts, and the paths are those
of configuration nodes. -/
structure Acceptable (rawNodes : BytesMap) (clients : List Bytes) : Prop where
  raw : Manager.RawFits rawNodes
  short : ∀ nodes, normalized rawNodes = some nodes → ContentFits (graynodevalToTblval (grayRecords nodes))
  hosts : ∀ c ∈ clients, HostName c
  outside : ∀ raw ∈ rawNodes, ∀ p, pathNormalize raw = some p → ¬ Above notifyPrefix p

theorem notifyPrefix_above {q : Bytes} (h : NotifyNode q) : Above notifyPrefix q := by
  obtain ⟨name, -, rfl | rfl | rfl⟩ := h
  · exact Or.inr ⟨[99, 108, 105, 101, 110, 116] ++ slash :: name, rfl⟩
  · exact Or.inr ⟨[99, 111, 110, 116, 101, 110, 116] ++ slash :: name, rfl⟩
  · exact Or.inr ⟨[98, 97, 99, 107, 108, 105, 110, 107] ++ slash :: name, rfl⟩

/-- Such a begin has an entry. -/
theorem Acceptable.entry (h : Acceptable rawNodes clients) (hn : normalized rawNodes = some nodes) :
    ∃ e : Entry, e.nodes = nodes ∧ e.clients = clients := by
  have hshort := h.short nodes hn
  have hpath : ∀ p ∈ nodes, ∃ raw ∈ rawNodes, pathNormalize raw = some p := fun p => (mem_normalized hn p).mp
  have hcard : nodes.keys.card < 65536 := by
    have hsub : nodes.keys ⊆ rawNodes.keys.image (fun raw => (pathNormalize raw).getD []) := by
      intro p hp
      obtain ⟨raw, hr, hnorm⟩ := hpath p (Finmap.mem_keys.mp hp)
      exact Finset.mem_image.mpr ⟨raw, Finmap.mem_keys.mpr hr, by rw [hnorm]; rfl⟩
    exact Nat.lt_of_le_of_lt ((Finset.card_le_card hsub).trans Finset.card_image_le) h.raw.card
  refine ⟨⟨nodes, clients, ⟨hcard, fun p hp => ?_, fun p v hv => ?_⟩, ?_, hshort, h.hosts, ?_⟩, rfl, rfl⟩
  · obtain ⟨raw, hr, hnorm⟩ := hpath p hp
    exact h.raw.path raw hr p hnorm
  · obtain ⟨-, -, -, hlen⟩ := normalized_value hn hv
    exact hlen.trans (Nat.sub_le _ _)
  · exact normalized_keys hn
  · intro p hp path hz q hq hnode
    obtain ⟨raw, hr, hnorm⟩ := hpath p hp
    have hnul := Manager.pathNormalize_nulFree hnorm (h.raw.nul raw hr)
    rw [Manager.zkPath_normal hnorm hnul] at hz
    split at hz
    · rw [← Option.some.inj hz, cStr_of_nulFree hnul] at hq
      exact h.outside raw hr p hnorm ((notifyPrefix_above hnode).trans hq)
    · exact absurd hz (by simp)

end

/-! ### Rollback -/

section

variable {book : Bytes → Option Entry} {own : Bytes → Prop}

/-- The id was linked, and none of the clients points at it. -/
def Cleared (g : Bytes) (clients : List Bytes) (w : World) : Prop :=
  w.linked g ∧ ∀ c ∈ clients, w.tree.nodes.lookup (clientNode c) ≠ some g

/-- Nobody makes a new client point at an id that was linked. -/
theorem Cleared.within {own : Bytes → Prop} {g : Bytes} {clients : List Bytes} {w w' : World} (h : Cleared g clients w)
    (hr : Within book own w w') : Cleared g clients w' := by
  refine ⟨hr.linked g h.1, fun c hc hl => ?_⟩
  rcases hr.client c g hl with hold | ⟨-, hnl, -⟩
  · exact h.2 c hc hold
  · exact hnl (hr.linked g h.1)

theorem firm_cleared (g : Bytes) (clients : List Bytes) : Firm book own (Cleared g clients) :=
  fun _ _ _ _ hr h => h.within hr

/-- The loop over the clients of the backlink. -/
theorem holds_deleteClients {g : Bytes} : ∀ (items before : List Bytes), (∀ c ∈ items, HostName c) →
    Holds book own (Cleared g before) (Program.deleteClients items)
      (fun ret w => ret = .ok → Cleared g (before ++ items) w) := by
  intro items
  induction items with
  | nil =>
    intro before _
    refine Keeps.done (firm_cleared g before) fun w _ h _ => ?_
    rwa [List.append_nil]
  | cons c items ih =>
    intro before hhosts
    have hcstr : cStr (clientNode c) = clientNode c :=
      cStr_of_nulFree (Manager.clientNode_nulFree (hhosts c List.mem_cons_self).2.1)
    have hadd : ∀ {w : World}, Cleared g before w → w.tree.nodes.lookup (clientNode c) = none →
        Cleared g (before ++ [c]) w := by
      intro w h hno
      refine ⟨h.1, fun d hd => ?_⟩
      rcases List.mem_append.mp hd with hd | hd
      · exact h.2 d hd
      · rw [List.mem_singleton.mp hd, hno]
        simp
    rw [Program.deleteClients]
    refine Keeps.bind (holds_zkDelete (firm_cleared g before) (firm_cleared g (before ++ [c])) ?_ ?_) fun ret => ?_
    · intro w w' hi h hrem hl
      rw [hcstr] at hrem
      have hw : Within book own w w' := within_removed hi hl hrem fun g' j hp =>
        absurd hp (clientNode_ne_contentNode _ _ _)
      exact ⟨hw, hadd (h.within hw) hrem.self⟩
    · intro w _ h hno
      rw [hcstr] at hno
      exact hadd h (Finmap.lookup_eq_none.mpr hno)
    · have hst : Firm book own (fun w => ret = .ok → Cleared g (before ++ [c]) w) :=
        fun w w' h1 h2 hr h hret => firm_cleared g _ w w' h1 h2 hr (h hret)
      cases ret with
      | ok =>
        have hrest := ih (before ++ [c]) fun d hd => hhosts d (List.mem_cons_of_mem _ hd)
        rw [List.append_assoc, List.singleton_append] at hrest
        exact hrest.weaken hst (fun _ _ h => h rfl) (fun _ _ _ h => h)
      | _ => exact Keeps.done hst fun _ _ _ h => absurd h (by simp)

/-- No client at all points at an id of which the clients are cleared. -/
theorem Cleared.all {g : Bytes} {e : Entry} {w : World} (h : Cleared g e.clients w) (hi : Sound book w)
    (hbook : book g = some e) (c : Bytes) : w.tree.nodes.lookup (clientNode c) ≠ some g := by
  intro hc
  obtain ⟨e', he', hmem, -⟩ := hi.client c g hc
  obtain rfl := Option.some.inj (hbook.symm.trans he')
  exact h.2 c hmem hc

/-- The loop over the content nodes, once no client points at them. -/
theorem holds_deleteContent {sec usec : Nat} {e : Entry} (hbook : book (grayGenerateId sec usec) = some e) :
    ∀ (fuel index : Nat), Holds book own (Cleared (grayGenerateId sec usec) e.clients)
      (Program.deleteContent (grayGenerateId sec usec) fuel index)
      (fun _ => Cleared (grayGenerateId sec usec) e.clients) := by
  intro fuel
  induction fuel with
  | zero => exact fun _ => Keeps.done (firm_cleared _ _) fun _ _ h => h
  | succ fuel ih =>
    intro index
    have hcstr := cStr_of_nulFree (isValidPath_nulFree (contentNode_valid sec usec index))
    rw [Program.deleteContent]
    refine Keeps.bind (Q := fun _ => Cleared (grayGenerateId sec usec) e.clients) ?_ fun ret => ?_
    · refine Keeps.bind (Q := fun _ => Cleared (grayGenerateId sec usec) e.clients)
        (holds_request (firm_cleared _ _) (fun _ => firm_cleared _ _) fun w r w' hi h hs hl => ?_) fun r => ?_
      · have hw : Within book own w w' := by
          have hrem : Removed (cStr (contentNode (grayGenerateId sec usec) index)) w.tree w'.tree →
              Within book own w w' := by
            intro hrem
            rw [hcstr] at hrem
            refine within_removed hi hl hrem fun g' j hp => ?_
            obtain ⟨rfl, rfl⟩ := contentNode_inj₂ hp
            exact ⟨h.1, h.all hi hbook⟩
          rcases serves_delete hs with ⟨-, h⟩ | ⟨e, -, ⟨ht, -⟩ | ⟨h, -⟩⟩
          · exact hrem h
          · exact within_same hi hl ht
          · exact hrem h
        exact ⟨hw, h.within hw⟩
      · rcases r with e | u
        · cases e <;> exact Keeps.done (firm_cleared _ _) fun _ _ h => h
        · exact Keeps.done (firm_cleared _ _) fun _ _ h => h
    · cases ret with
      | ok => exact ih (index + 1)
      | _ => exact Keeps.done (firm_cleared _ _) fun _ _ h => h

/-- **`zk_gray_delete_notify` among other processes**: the clients are deleted before the content. -/
theorem holds_zkGrayDeleteNotify (fuel sec usec : Nat) :
    Holds book own (fun _ => True) (Program.zkGrayDeleteNotify fuel (grayGenerateId sec usec)) (fun _ _ => True) := by
  rw [Program.zkGrayDeleteNotify]
  have hend : ∀ {P : World → Prop} (ret : Ret), Firm book own P →
      Holds book own P (.done ret : Zoo Ret) (fun _ _ => True) := fun _ hst => Keeps.done hst fun _ _ _ => trivial
  -- the backlink that was read is that of a release, and its id has been linked
  have hget : Holds book own (fun _ => True) (Program.zkGet (backlinkNode (grayGenerateId sec usec)))
      (fun r w => (r.1 = .ok → ∃ e, book (grayGenerateId sec usec) = some e ∧ r.2 = backlinkContent e.clients) ∧
        (r.1 = .ok → w.linked (grayGenerateId sec usec))) := by
    have hlinked : ∀ φ : Prop, Firm book own (fun w => φ → w.linked (grayGenerateId sec usec)) :=
      fun φ w w' _ _ hr h hφ => hr.linked _ (h hφ)
    refine Keeps.bind (Q := fun r w => (∀ d, r = .ok d → ∃ e, book (grayGenerateId sec usec) = some e ∧
        d = backlinkContent e.clients) ∧ ((∃ d, r = .ok d) → w.linked (grayGenerateId sec usec)))
      (holds_request firm_true (fun r => (stable_const _).and (hlinked _)) fun w r w' hi _ hs hl => ?_) fun r => ?_
    · obtain ⟨ht, hok, -⟩ := serves_get hs
      rw [Manager.cStr_backlinkNode] at hok
      have hw : Within book own w w' := within_same hi hl ht
      refine ⟨hw, fun d hd => (hi.backlink _ d (hok d hd)).2, fun h => ?_⟩
      obtain ⟨d, hd⟩ := h
      exact hw.linked _ (hi.backlink _ d (hok d hd)).1
    · rcases r with e | d
      · cases e <;> exact Keeps.done ((stable_const _).and (hlinked _)) fun _ _ _ =>
          ⟨fun h => absurd h (by simp), fun h => absurd h (by simp)⟩
      · exact Keeps.done ((stable_const _).and (hlinked _)) fun _ _ h => ⟨fun _ => h.1 d rfl, fun _ => h.2 ⟨d, rfl⟩⟩
  refine Keeps.bind hget fun r => ?_
  obtain ⟨ret, bl⟩ := r
  have hlinked : Firm book own (fun w => ret = .ok → w.linked (grayGenerateId sec usec)) :=
    fun w w' _ _ hr h hφ => hr.linked _ (h hφ)
  refine Keeps.of_imp (fun hbl => ?_) hlinked
  cases ret with
  | ok =>
    obtain ⟨e, he, rfl⟩ := hbl rfl
    dsimp only
    rw [Manager.getlines_backlinkContent fun c hc => (e.hosts c hc).2.2]
    refine Keeps.weaken (Keeps.bind (holds_deleteClients e.clients [] e.hosts) fun ret => ?_) hlinked
      (fun w _ h => ⟨h rfl, by simp⟩) (fun _ _ _ h => h)
    have hst : Firm book own (fun w => ret = .ok → Cleared (grayGenerateId sec usec) ([] ++ e.clients) w) :=
      fun w w' h1 h2 hr h hret => firm_cleared _ _ w w' h1 h2 hr (h hret)
    cases ret with
    | ok =>
      refine Keeps.weaken (Keeps.bind (holds_deleteContent he fuel 0) fun ret => ?_) hst (fun _ _ h => h rfl)
        (fun _ _ _ h => h)
      cases ret with
      | errZooNotExist =>
        refine Keeps.bind (Q := fun ret _ => ret = .ok → True) (holds_zkDelete (firm_cleared _ _) firm_true ?_
          (fun _ _ _ _ => trivial)) fun ret => ?_
        · intro w w' hi _ hrem hl
          rw [Manager.cStr_backlinkNode] at hrem
          exact ⟨within_removed hi hl hrem fun g' j hp => absurd hp.symm (contentNode_ne_backlinkNode _ _ _), trivial⟩
        · cases ret <;> exact hend _ (stable_const _)
      | _ => exact hend _ (firm_cleared _ _)
    | _ => exact hend _ hst
  | _ => exact hend _ hlinked

/-! ### Commit -/

/-- What was read of the content of an id up to the number `n`. -/
def Cut (book : Bytes → Option Entry) (g : Bytes) (n : Nat) (content : Bytes) : Prop :=
  (content = [] ∧ n = 0) ∨ ∃ e, book g = some e ∧ n ≤ pieceCount e.content ∧
    content = e.content.take (n * grayContentMaxSize)

/-- The loop that reads the content nodes, whoever deletes them meanwhile. -/
theorem holds_readContent {sec usec : Nat} : ∀ (fuel i : Nat) (content : Bytes),
    Cut book (grayGenerateId sec usec) i content →
      Holds book own (fun _ => True) (Program.readContent (grayGenerateId sec usec) fuel i content)
        (fun r _ => ∀ c, r = some c → ∃ n, Cut book (grayGenerateId sec usec) n c) := by
  intro fuel
  induction fuel with
  | zero => exact fun i content _ => Keeps.done firm_true fun _ _ _ _ h => absurd h (by simp)
  | succ fuel ih =>
    intro i content hcut
    rw [Program.readContent]
    refine Keeps.bind (Q := fun r _ => ∀ d, r = .ok d →
        Cut book (grayGenerateId sec usec) (i + 1) (content ++ d)) (holds_request firm_true (fun _ => stable_const _)
      fun w r w' hi _ hs hl => ?_) fun r => ?_
    · obtain ⟨ht, hok, -⟩ := serves_get hs
      rw [cStr_of_nulFree (isValidPath_nulFree (contentNode_valid sec usec i))] at hok
      refine ⟨within_same hi hl ht, fun d hd => ?_⟩
      obtain ⟨e, he, hlt, rfl⟩ := hi.piece _ i d (hok d hd)
      have hsofar : content = e.content.take (i * grayContentMaxSize) := by
        rcases hcut with ⟨rfl, rfl⟩ | ⟨e', he', -, hc⟩
        · rw [Nat.zero_mul, List.take_zero]
        · obtain rfl := Option.some.inj (he.symm.trans he')
          exact hc
      refine Or.inr ⟨e, he, hlt, ?_⟩
      rw [hsofar, contentPiece, Nat.succ_mul, List.take_add]
    · rcases r with e | d
      · cases e with
        | noNode =>
          refine Keeps.done (stable_const _) fun _ _ _ c hc => ⟨i, ?_⟩
          exact Option.some.inj hc ▸ hcut
        | _ => exact Keeps.done (stable_const _) fun _ _ _ c hc => absurd hc (by simp)
      · exact Keeps.weaken (Keeps.of_imp (fun h : Cut book (grayGenerateId sec usec) (i + 1) (content ++ d) =>
          ih (i + 1) (content ++ d) h) firm_true) (stable_const _) (fun _ _ h => ⟨h d rfl, trivial⟩)
          (fun _ _ _ h => h)

/-- **A content that was cut short is not decoded**; what is decoded is the whole of it. -/
theorem Cut.records {g content : Bytes} {n : Nat} (h : Cut book g n content) {vnodes : Finset Bytes}
    (hread : tblvalToGraynodeval content = some vnodes) : ∃ e, book g = some e ∧ vnodes = grayRecords e.nodes := by
  rcases h with ⟨rfl, -⟩ | ⟨e, he, hn, rfl⟩
  · exact absurd hread (by simp [tblvalToGraynodeval, vectorCountLen])
  · refine ⟨e, he, ?_⟩
    rcases Nat.lt_or_ge (n * grayContentMaxSize) e.content.length with hlt | hge
    · rw [Entry.content, tblvalToGraynodeval_take e.fits.card_records (fun r hr => e.fits.record hr) hlt] at hread
      exact absurd hread (by simp)
    · rw [List.take_of_length_le hge, Manager.tblvalToGraynodeval_content e.fits e.serialize] at hread
      exact (Option.some.inj hread).symm

theorem Cut.pairs {g content : Bytes} {n : Nat} (h : Cut book g n content) {pairs : List (Bytes × Bytes)}
    (hread : grayDeserializeContent content = some pairs) : ∃ e, book g = some e ∧ pairs = grayPairs e.nodes := by
  unfold grayDeserializeContent at hread
  split at hread
  · exact absurd hread (by simp)
  · split at hread
    · exact absurd hread (by simp)
    · next hr =>
      obtain ⟨e, he, rfl⟩ := h.records hr
      exact ⟨e, he, (Option.some.inj hread).symm⟩

/-- `zk_node_set` of a configuration node. -/
theorem holds_zkNodeSet {p v : Bytes} (hout : ∀ path, zkPath p = some path → ∀ q, Above q (cStr path) → ¬ NotifyNode q) :
    Holds book own (fun _ => True) (Program.zkNodeSet p v) (fun _ _ => True) := by
  have hend : ∀ ret : Ret, Holds book own (fun _ => True) (.done ret : Zoo Ret) (fun _ _ => True) :=
    fun _ => Keeps.done firm_true fun _ _ _ => trivial
  rw [Program.zkNodeSet]
  cases hpath : zkPath p with
  | none => exact hend _
  | some path =>
    refine Keeps.bind (Program.keeps_zkModify firm_true firm_true.idle fun w w' hi _ hset hl => ?_) fun ret => ?_
    · refine ⟨within_of_outside hi hl fun q hq => ?_, trivial⟩
      have hne : q ≠ cStr path := fun he => hout path hpath q (he ▸ Above.refl _) hq
      rw [hset.2 q, if_neg hne]
    · cases ret with
      | errZooNotExist => exact holds_zkCreateFuel_outside firm_true _ path v (hout path hpath)
      | _ => exact hend _

theorem holds_commitNodes : ∀ nodes : List (Bytes × Bytes),
    (∀ pv ∈ nodes, ∀ path, zkPath pv.1 = some path → ∀ q, Above q (cStr path) → ¬ NotifyNode q) →
      Holds book own (fun _ => True) (Program.commitNodes nodes) (fun _ _ => True) := by
  intro nodes
  induction nodes with
  | nil => exact fun _ => Keeps.done firm_true fun _ _ _ => trivial
  | cons pv nodes ih =>
    intro hout
    obtain ⟨p, v⟩ := pv
    rw [Program.commitNodes]
    refine Keeps.bind (holds_zkNodeSet (hout _ List.mem_cons_self)) fun ret => ?_
    cases ret with
    | ok => exact ih fun pv hpv => hout pv (List.mem_cons_of_mem _ hpv)
    | _ => exact Keeps.done firm_true fun _ _ _ => trivial

/-- **`zk_gray_commit` among other processes.** -/
theorem holds_zkGrayCommit (fuel fuel' sec usec : Nat) :
    Holds book own (fun _ => True) (Program.zkGrayCommit fuel fuel' (grayGenerateId sec usec)) (fun _ _ => True) := by
  have hend : ∀ ret : Ret, Holds book own (fun _ => True) (.done ret : Zoo Ret) (fun _ _ => True) :=
    fun _ => Keeps.done firm_true fun _ _ _ => trivial
  have hget : Holds book own (fun _ => True) (Program.zkGrayGetContent fuel (grayGenerateId sec usec))
      (fun r _ => ∀ pairs, r = some pairs → ∃ e, book (grayGenerateId sec usec) = some e ∧ pairs = grayPairs e.nodes) := by
    rw [Program.zkGrayGetContent]
    refine Keeps.bind (holds_readContent fuel 0 [] (Or.inl ⟨rfl, rfl⟩)) fun r => ?_
    cases r with
    | none => exact Keeps.done (stable_const _) fun _ _ _ _ h => absurd h (by simp)
    | some content =>
      refine Keeps.done (stable_const _) fun _ _ h pairs hp => ?_
      obtain ⟨n, hcut⟩ := h content rfl
      exact hcut.pairs hp
  rw [Program.zkGrayCommit]
  refine Keeps.bind hget fun r => ?_
  refine Keeps.weaken (Keeps.of_imp (P := fun _ => True) (fun hr => ?_) firm_true) (stable_const _)
    (fun _ _ h => ⟨h, trivial⟩) (fun _ _ _ h => h)
  cases r with
  | none => exact hend _
  | some pairs =>
    obtain ⟨e, he, rfl⟩ := hr pairs rfl
    refine Keeps.bind (holds_commitNodes (grayPairs e.nodes) ?_) fun ret => ?_
    · rintro ⟨p, v⟩ hpv
      exact e.outside p (ZkTree.mem_of_lookup ((Manager.mem_grayPairs e.fits).mp hpv))
    · cases ret with
      | ok => exact holds_zkGrayDeleteNotify fuel' sec usec
      | _ => exact hend _

end

end QConf.Protocol
