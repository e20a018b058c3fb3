import QConf.Manager.Commit
import QConf.Manager.Rollback
import QConf.Manager.Rules

/-!
# Gray releases while managers interleave

Several managers begin, commit and roll back releases at the same time.  Their
requests interleave, any of them may fail or get lost, and a manager may stop in the
middle of a call.  What protects the agents is the order of the requests: a begin
writes the content nodes first, then the client nodes, then the backlink; a rollback
reads the backlink and deletes the clients it lists before the first content node.

* `Sound`: every client node points at a release of which all content nodes are there, and
  every content node holds its piece.
* `Within`: what one request may do.  It keeps `Sound` (`Within.sound`).
* `Holds`: a program keeps to it, whatever the others do within it.  The rules for
  `zk_create` (`holds_zkCreateFuel`) and `zk_delete` (`holds_zkDelete`) are those of `Rules` for nodes
  of releases; the calls of the manager are in `Interleaving`.

An id that was rolled back must not be given new nodes.  The state has a variable for
this that no program reads: the ids whose backlink has ever been there.
-/

namespace QConf

open RelyGuarantee

/-! ### Names -/

theorem underscore_not_mem_integerToString (n : Nat) : underscore ∉ integerToString n := by
  intro h
  exact absurd (mem_integerToString h).2 (by decide)

/-- A content node has one id and one number. -/
theorem contentNode_inj₂ {g g' : Bytes} {i j : Nat} (h : contentNode g i = contentNode g' j) : g = g' ∧ i = j := by
  have h1 := (List.cons.inj (List.append_cancel_left h)).2
  -- the last underscore is in front of the number
  have h2 := congrArg List.reverse h1
  rw [List.reverse_append, List.reverse_append, List.reverse_cons, List.reverse_cons, List.append_assoc,
    List.append_assoc, List.singleton_append, List.singleton_append] at h2
  have hdigits : ∀ n, underscore ∉ (integerToString n).reverse := fun n h =>
    underscore_not_mem_integerToString n (List.mem_reverse.mp h)
  have hnum : (integerToString i).reverse = (integerToString j).reverse := by
    have ht := congrArg (List.takeWhile (· != underscore)) h2
    have hcut : ∀ (n : Nat) (rest : Bytes),
        ((integerToString n).reverse ++ underscore :: rest).takeWhile (· != underscore) =
          (integerToString n).reverse := by
      intro n rest
      have hpos : ∀ b ∈ (integerToString n).reverse, (b != underscore) = true :=
        fun b hb => bne_iff_ne.mpr fun he => hdigits n (he ▸ hb)
      rw [List.takeWhile_append_of_pos hpos, List.takeWhile_cons_of_neg (by simp), List.append_nil]
    rwa [hcut, hcut] at ht
  rw [hnum] at h2
  refine ⟨List.reverse_injective (List.cons.inj (List.append_cancel_left h2)).2, ?_⟩
  exact integerToString_inj (List.reverse_injective hnum)

theorem backlinkNode_inj {g g' : Bytes} (h : backlinkNode g = backlinkNode g') : g = g' :=
  (List.cons.inj (List.append_cancel_left h)).2

/-- A node of a tree does not end with a slash. -/
theorem name_ne_nil {t : ZkTree} {p name : Bytes} (hp : p ≠ []) (h : p ++ slash :: name ∈ t.nodes) : name ≠ [] := by
  rintro rfl
  rcases isValidPath_iff.mp (t.valid _ h) with hr | ⟨-, -, hlast, -⟩
  · have hlen := congrArg List.length hr
    rw [List.length_append, List.length_singleton, rootPath, List.length_singleton] at hlen
    exact hp (List.length_eq_zero_iff.mp (by omega))
  · exact hlast (by simp)

end QConf

namespace QConf.Protocol

open RelyGuarantee
open Manager (MapFits ContentFits HostName NotifyNode graySerializeContent grayDeserializeContent grayRecords
  grayPairs contentPiece pieceCount grayContentMaxSize backlinkContent zkPath pathNormalize parentNode)

section

variable {t : ZkTree} {c g : Bytes} {j : Nat}

theorem notifyNode_client (h : clientNode c ∈ t.nodes) : NotifyNode (clientNode c) :=
  ⟨c, name_ne_nil (by decide) h, Or.inl rfl⟩

theorem notifyNode_backlink (h : backlinkNode g ∈ t.nodes) : NotifyNode (backlinkNode g) :=
  ⟨g, name_ne_nil (by decide) h, Or.inr (Or.inr rfl)⟩

/-- The directories of the releases and what is above them. -/
theorem not_notifyNode_of_above {q : Bytes}
    (h : Above q notifyClientPrefix ∨ Above q notifyContentPrefix ∨ Above q notifyBacklinkPrefix) : ¬ NotifyNode q := by
  intro hq
  have hlong := hq.le_length
  rcases h with h | h | h
  · have := h.length_le
    rw [show notifyClientPrefix.length = 28 from rfl] at this
    omega
  · have := h.length_le
    rw [show notifyContentPrefix.length = 29 from rfl] at this
    omega
  · -- a client of one character is as long as the directory of the backlinks
    have hlen := h.length_le
    rw [show notifyBacklinkPrefix.length = 30 from rfl] at hlen
    obtain ⟨name, hne, rfl | rfl | rfl⟩ := hq
    · exact not_above_client_backlink name [] (h.trans (Or.inr ⟨[], rfl⟩))
    · have hpos := List.length_pos_iff.mpr hne
      rw [List.length_append, List.length_cons, show notifyContentPrefix.length = 29 from rfl] at hlen
      omega
    · rw [List.length_append, List.length_cons, show notifyBacklinkPrefix.length = 30 from rfl] at hlen
      omega

end

/-! ### The state -/

/-- What a begin writes: the map with its paths normalised, for some hosts.  The paths are
those of configuration nodes. -/
structure Entry where
  nodes : BytesMap
  clients : List Bytes
  fits : MapFits nodes
  nonempty : nodes.keys ≠ ∅
  short : ContentFits (graynodevalToTblval (grayRecords nodes))
  hosts : ∀ c ∈ clients, HostName c
  outside : ∀ p ∈ nodes, ∀ path, zkPath p = some path → ∀ q, Above q (cStr path) → ¬ NotifyNode q

def Entry.content (e : Entry) : Bytes := graynodevalToTblval (grayRecords e.nodes)

theorem Entry.serialize (e : Entry) : graySerializeContent e.nodes = some e.content := by
  rw [graySerializeContent, if_neg e.nonempty]
  rfl

theorem Entry.content_ne_nil (e : Entry) : e.content ≠ [] := by
  intro h
  have := Manager.tblvalToGraynodeval_content e.fits e.serialize
  rw [h] at this
  exact absurd this (by simp [tblvalToGraynodeval, vectorCountLen])

/-- The tree, and the ids whose backlink has ever been in it. -/
structure World where
  tree : ZkTree
  linked : Bytes → Prop

/-- The history after a request. -/
def Linked (w w' : World) : Prop := ∀ g, w'.linked g ↔ w.linked g ∨ backlinkNode g ∈ w'.tree.nodes

/-- A request, with whatever goes wrong. -/
abbrev Serves : World → (i : Request) → i.Answer → World → Prop := Program.ServesIn World.tree Linked

/-- A program alone in a session is one of the ways in which it can run. -/
theorem alone_run {α : Type} (p : Zoo α) : ∀ (zk : Zk) (linked : Bytes → Prop),
    ∃ linked', Alone Serves p ⟨zk.tree, linked⟩ (p.run zk).1 ⟨(p.run zk).2.tree, linked'⟩ := by
  induction p with
  | done a => exact fun zk linked => ⟨linked, .done a _⟩
  | ask i k ih =>
    intro zk linked
    obtain ⟨linked', h⟩ := ih (i.serve zk).1 (i.serve zk).2
      (fun g => linked g ∨ backlinkNode g ∈ (i.serve zk).2.tree.nodes)
    exact ⟨linked', .ask ⟨i.serves_serve zk, fun _ => Iff.rfl⟩ h⟩

section

variable (book : Bytes → Option Entry)

/-- **The invariant.** -/
structure Sound (w : World) : Prop where
  client : ∀ c g, w.tree.nodes.lookup (clientNode c) = some g → ∃ e, book g = some e ∧ c ∈ e.clients ∧
    ∀ j < pieceCount e.content, contentNode g j ∈ w.tree.nodes
  piece : ∀ g j v, w.tree.nodes.lookup (contentNode g j) = some v → ∃ e, book g = some e ∧
    j < pieceCount e.content ∧ v = contentPiece e.content (j * grayContentMaxSize)
  backlink : ∀ g v, w.tree.nodes.lookup (backlinkNode g) = some v → w.linked g ∧
    ∃ e, book g = some e ∧ v = backlinkContent e.clients

/-- What a process may do that writes for the ids `own`.  Whoever else deletes content nodes: their
id was linked, and no client points at them. -/
structure Within (own : Bytes → Prop) (w w' : World) : Prop where
  linked : ∀ g, w.linked g → w'.linked g
  links : ∀ g, w'.linked g → w.linked g ∨ own g
  linkedIn : ∀ g, backlinkNode g ∈ w'.tree.nodes → w'.linked g
  client : ∀ c g, w'.tree.nodes.lookup (clientNode c) = some g → w.tree.nodes.lookup (clientNode c) = some g ∨
    (own g ∧ ¬ w'.linked g ∧ ∃ e, book g = some e ∧ c ∈ e.clients ∧
      ∀ j < pieceCount e.content, contentNode g j ∈ w'.tree.nodes)
  piece : ∀ g j v, w'.tree.nodes.lookup (contentNode g j) = some v →
    w.tree.nodes.lookup (contentNode g j) = some v ∨
    (own g ∧ ∃ e, book g = some e ∧ j < pieceCount e.content ∧
      v = contentPiece e.content (j * grayContentMaxSize))
  gone : ∀ g j, contentNode g j ∈ w.tree.nodes → contentNode g j ∉ w'.tree.nodes →
    w.linked g ∧ ∀ c, w.tree.nodes.lookup (clientNode c) ≠ some g
  backlink : ∀ g v, w'.tree.nodes.lookup (backlinkNode g) = some v →
    w.tree.nodes.lookup (backlinkNode g) = some v ∨ (own g ∧ ∃ e, book g = some e ∧ v = backlinkContent e.clients)

end

section

variable {book : Bytes → Option Entry} {own own' : Bytes → Prop} {w w' : World}

theorem Within.mono (h : Within book own w w') (hown : ∀ g, own g → own' g) : Within book own' w w' where
  linked := h.linked
  links g hg := (h.links g hg).imp id (hown g)
  linkedIn := h.linkedIn
  client c g hg := (h.client c g hg).imp id (And.imp_left (hown g))
  piece g j v hv := (h.piece g j v hv).imp id (And.imp_left (hown g))
  gone := h.gone
  backlink g v hv := (h.backlink g v hv).imp id (And.imp_left (hown g))

/-- **What a process may do keeps the invariant.** -/
theorem Within.sound (hi : Sound book w) (h : Within book own w w') : Sound book w' where
  client c g hg := by
    rcases h.client c g hg with hold | ⟨-, -, hnew⟩
    · obtain ⟨e, he, hc, hall⟩ := hi.client c g hold
      refine ⟨e, he, hc, fun j hj => ?_⟩
      by_contra hno
      exact (h.gone g j (hall j hj) hno).2 c hold
    · exact hnew
  piece g j v hv := by
    rcases h.piece g j v hv with hold | ⟨-, hnew⟩
    · exact hi.piece g j v hold
    · exact hnew
  backlink g v hv := by
    refine ⟨h.linkedIn g (ZkTree.mem_of_lookup hv), ?_⟩
    rcases h.backlink g v hv with hold | ⟨-, hnew⟩
    · exact (hi.backlink g v hold).2
    · exact hnew

theorem Sound.linked_of_mem (hi : Sound book w) {g : Bytes} (h : backlinkNode g ∈ w.tree.nodes) : w.linked g := by
  obtain ⟨v, hv⟩ := Option.isSome_iff_exists.mp (Finmap.lookup_isSome.mpr h)
  exact (hi.backlink g v hv).1

/-! ### What one request does -/

/-- A change outside the nodes of releases. -/
theorem within_of_outside (hi : Sound book w) (hl : Linked w w')
    (h : ∀ q, NotifyNode q → w'.tree.nodes.lookup q = w.tree.nodes.lookup q) : Within book own w w' := by
  have hclient : ∀ {c g}, w'.tree.nodes.lookup (clientNode c) = some g →
      w.tree.nodes.lookup (clientNode c) = some g := fun hg =>
    (h _ (notifyNode_client (ZkTree.mem_of_lookup hg))).symm.trans hg
  have hpiece : ∀ g j, w'.tree.nodes.lookup (contentNode g j) = w.tree.nodes.lookup (contentNode g j) := fun g j =>
    h _ (Manager.notifyNode_contentNode g j)
  have hback : ∀ {g v}, w'.tree.nodes.lookup (backlinkNode g) = some v →
      w.tree.nodes.lookup (backlinkNode g) = some v := fun hv =>
    (h _ (notifyNode_backlink (ZkTree.mem_of_lookup hv))).symm.trans hv
  refine ⟨fun g hg => (hl g).mpr (Or.inl hg), fun g hg => Or.inl ?_, fun g hg => (hl g).mpr (Or.inr hg),
    fun c g hg => Or.inl (hclient hg), fun g j v hv => Or.inl ((hpiece g j).symm.trans hv), fun g j hm hno => ?_,
    fun g v hv => Or.inl (hback hv)⟩
  · rcases (hl g).mp hg with hg | hg
    · exact hg
    · obtain ⟨v, hv⟩ := Option.isSome_iff_exists.mp (Finmap.lookup_isSome.mpr hg)
      exact (hi.backlink g v (hback hv)).1
  · rw [← Finmap.lookup_isSome, hpiece, Finmap.lookup_isSome] at hno
    exact absurd hm hno

theorem within_same (hi : Sound book w) (hl : Linked w w') (h : w'.tree = w.tree) : Within book own w w' :=
  within_of_outside hi hl fun _ _ => by rw [h]

/-- A new node, which is one that the process may write. -/
theorem within_inserted {p v : Bytes} (hi : Sound book w) (hl : Linked w w')
    (h : Inserted p v w.tree w'.tree)
    (hclient : ∀ c, p = clientNode c → own v ∧ ¬ w.linked v ∧ ∃ e, book v = some e ∧ c ∈ e.clients ∧
      ∀ j < pieceCount e.content, contentNode v j ∈ w.tree.nodes)
    (hpiece : ∀ g j, p = contentNode g j → own g ∧ ∃ e, book g = some e ∧ j < pieceCount e.content ∧
      v = contentPiece e.content (j * grayContentMaxSize))
    (hback : ∀ g, p = backlinkNode g → own g ∧ ∃ e, book g = some e ∧ v = backlinkContent e.clients) :
    Within book own w w' := by
  have hkeep : ∀ q ∈ w.tree.nodes, q ∈ w'.tree.nodes := by
    intro q hq
    rw [← Finmap.lookup_isSome, h.other (fun he => h.fresh (he ▸ hq)), Finmap.lookup_isSome]
    exact hq
  have hlinks : ∀ g, w'.linked g → w.linked g ∨ p = backlinkNode g := by
    intro g hg
    rcases (hl g).mp hg with hg | hg
    · exact Or.inl hg
    · by_cases hp : backlinkNode g = p
      · exact Or.inr hp.symm
      · rw [← Finmap.lookup_isSome, h.other hp, Finmap.lookup_isSome] at hg
        exact Or.inl (hi.linked_of_mem hg)
  refine ⟨fun g hg => (hl g).mpr (Or.inl hg), fun g hg => (hlinks g hg).imp id fun hp => (hback g hp).1,
    fun g hg => (hl g).mpr (Or.inr hg), fun c g hg => ?_, fun g j x hx => ?_, fun g j hm hno => absurd (hkeep _ hm) hno,
    fun g x hx => ?_⟩
  · by_cases hp : clientNode c = p
    · rw [hp, h.self, Option.some.injEq] at hg
      obtain ⟨hown, hnl, e, he, hc, hall⟩ := hclient c hp.symm
      rw [← hg]
      refine Or.inr ⟨hown, fun hl' => ?_, e, he, hc, fun j hj => hkeep _ (hall j hj)⟩
      rcases hlinks v hl' with hv | hv
      · exact hnl hv
      · exact clientNode_ne_backlinkNode c v (hp.trans hv)
    · exact Or.inl ((h.other hp).symm.trans hg)
  · by_cases hp : contentNode g j = p
    · rw [hp, h.self, Option.some.injEq] at hx
      rw [← hx]
      exact Or.inr (hpiece g j hp.symm)
    · exact Or.inl ((h.other hp).symm.trans hx)
  · by_cases hp : backlinkNode g = p
    · rw [hp, h.self, Option.some.injEq] at hx
      rw [← hx]
      exact Or.inr (hback g hp.symm)
    · exact Or.inl ((h.other hp).symm.trans hx)

/-- A node less, which is one that any process may delete. -/
theorem within_removed {p : Bytes} (hi : Sound book w) (hl : Linked w w') (h : Removed p w.tree w'.tree)
    (hpiece : ∀ g j, p = contentNode g j → w.linked g ∧ ∀ c, w.tree.nodes.lookup (clientNode c) ≠ some g) :
    Within book own w w' := by
  have hback : ∀ {q v}, w'.tree.nodes.lookup q = some v → w.tree.nodes.lookup q = some v := by
    intro q v hv
    by_cases hq : q = p
    · rw [hq, h.self] at hv
      exact absurd hv (by simp)
    · exact (h.other hq).symm.trans hv
  refine ⟨fun g hg => (hl g).mpr (Or.inl hg), fun g hg => Or.inl ?_, fun g hg => (hl g).mpr (Or.inr hg),
    fun c g hg => Or.inl (hback hg), fun g j v hv => Or.inl (hback hv), fun g j hm hno => ?_,
    fun g v hv => Or.inl (hback hv)⟩
  · rcases (hl g).mp hg with hg | hg
    · exact hg
    · obtain ⟨v, hv⟩ := Option.isSome_iff_exists.mp (Finmap.lookup_isSome.mpr hg)
      exact (hi.backlink g v (hback hv)).1
  · refine hpiece g j ?_
    by_contra hne
    rw [← Finmap.lookup_isSome, h.other (Ne.symm hne), Finmap.lookup_isSome] at hno
    exact hno hm

end

/-! ### Programs among others -/

section

variable (book : Bytes → Option Entry) (own : Bytes → Prop)

/-- What the others may do: they do not write for the ids `own`. -/
abbrev Others : World → World → Prop := Within book (fun g => ¬ own g)

/-- The program keeps `P` to `Q`, and writes for the ids `own` only. -/
abbrev Holds {α : Type} (P : World → Prop) (p : Zoo α) (Q : α → World → Prop) : Prop :=
  Keeps Serves (Sound book) (Others book own) (Within book own) P p Q

/-- An assertion that the others do not disturb. -/
abbrev Firm (P : World → Prop) : Prop := Stable (Sound book) (Others book own) P

end

section

variable {book : Bytes → Option Entry} {own : Bytes → Prop} {P P' : World → Prop} {α : Type}

theorem firm_true : Firm book own (fun _ => True) := stable_const True

/-- An assertion that is firm also survives what the program itself does outside the releases. -/
theorem Firm.outside {w w' : World} (hst : Firm book own P) (hi : Sound book w) (hl : Linked w w')
    (h : ∀ q, NotifyNode q → w'.tree.nodes.lookup q = w.tree.nodes.lookup q) (hP : P w) : P w' := by
  have hw : Within book (fun g => ¬ own g) w w' := within_of_outside hi hl h
  exact hst w w' hi (hw.sound hi) hw hP

/-- A request that leaves the tree as it is. -/
theorem Firm.idle (hst : Firm book own P) : Program.Idle World.tree Linked (Sound book) (Within book own) P :=
  fun _ _ hi hp ht hl => ⟨within_same hi hl ht, hst.outside hi hl (fun _ _ => by rw [ht]) hp⟩

/-- A node that is no node of a release may be made by anybody. -/
theorem Firm.dir (hst : Firm book own P) (q v : Bytes) (hq : ¬ NotifyNode q) :
    Program.Lets World.tree Linked (Sound book) (Within book own) P P (Inserted q v) := by
  intro w w' hi hp hin hl
  have hsame : ∀ x, NotifyNode x → w'.tree.nodes.lookup x = w.tree.nodes.lookup x :=
    fun x hx => hin.other fun he => hq (he ▸ hx)
  exact ⟨within_of_outside hi hl hsame, hst.outside hi hl hsame hp⟩

/-- One request. -/
theorem holds_request {i : Request} {Q : i.Answer → World → Prop} (hst : Firm book own P)
    (hQ : ∀ r, Firm book own (Q r))
    (h : ∀ w r w', Sound book w → P w → i.Serves w.tree r w'.tree → Linked w w' →
      Within book own w w' ∧ Q r w') : Holds book own P (.ask i .done) Q :=
  Program.keeps_request hst hQ h

theorem holds_zkExist (hst : Firm book own P) (path : Bytes) : Holds book own P (Program.zkExist path) (fun _ => P) :=
  Program.keeps_zkExist hst hst.idle path

/-- `zk_create` away from the nodes of releases. -/
theorem holds_zkCreateFuel_outside (hst : Firm book own P) (fuel : Nat) (path value : Bytes)
    (hout : ∀ q, Above q (cStr path) → ¬ NotifyNode q) :
    Holds book own P (Program.zkCreateFuel fuel path value) (fun _ => P) :=
  Program.keeps_zkCreateFuel_dirs hst hst.idle hst.dir fuel path value hout

/-- **`zk_create` of a node of a release.**  The nodes above it are no nodes of releases; where it
answers `QCONF_OK` the node has been inserted. -/
theorem holds_zkCreateFuel (hst : Firm book own P) (hst' : Firm book own P') {path value : Bytes}
    (hdirs : ∀ q, Above q (cStr (parentNode path)) → ¬ NotifyNode q)
    (hins : ∀ w w', Sound book w → P w → Inserted (cStr path) value w.tree w'.tree → Linked w w' →
      Within book own w w' ∧ P' w') (fuel : Nat) :
    Holds book own P (Program.zkCreateFuel fuel path value) (fun ret w => ret = .ok → P' w) :=
  (Program.keeps_zkCreateFuel hst hst' firm_true hst.idle hst.dir hdirs hins (fun _ _ _ _ => trivial)
    firm_true.idle fuel).weaken hst (fun _ _ h => h) (fun _ _ _ h => h.1)

/-- `zk_delete`: where it answers `QCONF_OK` the node is not there. -/
theorem holds_zkDelete (hst : Firm book own P) (hst' : Firm book own P') {path : Bytes}
    (hdel : ∀ w w', Sound book w → P w → Removed (cStr path) w.tree w'.tree → Linked w w' →
      Within book own w w' ∧ P' w')
    (hno : ∀ w, Sound book w → P w → cStr path ∉ w.tree.nodes → P' w) :
    Holds book own P (Program.zkDelete path) (fun ret w => ret = .ok → P' w) :=
  Program.keeps_zkDelete hst hst' hst.idle hdel fun w w' hi hp hn ht hl => (hst'.idle w w' hi (hno w hi hp hn) ht hl).2

end

end QConf.Protocol
