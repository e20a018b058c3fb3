import QConf.Manager.Release

/-!
# Rolling back again

A rollback that stops half-way is run again.  The second run finds its way by the
backlink and by the content node 0: without the backlink it answers an error, and
without the node 0 it takes the content for deleted.  So it finishes the first run just if
the backlink is still there and the first run did not stop among the content nodes,
and if the clients can be deleted at all.

For clients that are host names a begin and a rollback together change nothing: the
three directories may be new, and nothing in them is (`begin_rollback_identity`).
-/

namespace QConf.Manager

/-- A second rollback does what the first should have done. -/
structure Finishes (clients : List Bytes) (grayId : Bytes) (t₁ t₂ : ZkTree) : Prop where
  ok : (zkGrayRollback (.quiet t₂) grayId).1 = .ok
  same : (zkGrayRollback (.quiet t₂) grayId).2.tree = (zkGrayRollback (.quiet t₁) grayId).2.tree
  gone : ∀ q, ReleaseNode clients grayId q → q ∉ (zkGrayRollback (.quiet t₂) grayId).2.tree.nodes

/-- **A second rollback finishes the first** exactly where the clients can be deleted, the
backlink is still there, and the content nodes are not deleted in part: the node 0 is
there or none is. -/
theorem rollback_again_iff {zk zk₁ : Zk} {rawNodes : BytesMap} {clients : List Bytes} {sec usec : Nat}
    (hbegin : zkGrayBegin zk rawNodes clients sec usec = (.ok, zk₁))
    (hnul : ∀ c ∈ clients, NulFree c)
    (hnew : ∀ j, contentNode (grayGenerateId sec usec) j ∉ zk.tree.nodes)
    (faults : List (Option Fault)) :
    Finishes clients (grayGenerateId sec usec) zk₁.tree
        (zkGrayRollback ⟨zk₁.tree, faults⟩ (grayGenerateId sec usec)).2.tree ↔
      Resumable clients (grayGenerateId sec usec)
        (zkGrayRollback ⟨zk₁.tree, faults⟩ (grayGenerateId sec usec)).2.tree := by
  obtain ⟨nodes, content, -, -, hb, -, -, -⟩ := begun_of_begin hbegin hnul hnew
  have hst := zkGrayDeleteNotify_stages ⟨zk₁.tree, faults⟩ (grayGenerateId sec usec)
  change Stages _ _ (zkGrayRollback ⟨zk₁.tree, faults⟩ (grayGenerateId sec usec)).2 at hst
  generalize (zkGrayRollback ⟨zk₁.tree, faults⟩ (grayGenerateId sec usec)).2 = zk₂ at hst ⊢
  have hst' := zkGrayDeleteNotify_stages (.quiet zk₂.tree) (grayGenerateId sec usec)
  change Stages _ _ (zkGrayRollback (.quiet zk₂.tree) (grayGenerateId sec usec)).2 at hst'
  constructor
  · intro hf
    -- what is not deleted twice is there in the end
    have hgone : ∀ c ∈ clients, clientNode c ∉
        (zkGrayRollback (.quiet zk₂.tree) (grayGenerateId sec usec)).2.tree.nodes :=
      fun c hc => hf.gone _ (Or.inl ⟨c, hc, rfl⟩)
    have hlisted : Listed clients := by
      intro c hc hdelim
      refine hgone c hc (hst'.keep_unlisted hdelim ?_)
      exact hst.keep_unlisted hdelim (hb.client_mem hc)
    have hshrunk : Shrunk (ReleaseNode clients (grayGenerateId sec usec)) zk₁.tree zk₂.tree :=
      hst.shrunk_begun hb hlisted hnul
    have hapart : Apart clients := by
      intro c hc d hd ha
      by_contra hne
      refine hgone d hd (hst'.keep_blocked (hb.backlink_lines hlisted hshrunk) hnul hb.order hc ha hne ?_)
      exact hst.keep_blocked (hb.backlink_lines hlisted (Shrunk.refl _ _)) hnul hb.order hc ha hne
        (hb.client_mem hd)
    have hback : backlinkNode (grayGenerateId sec usec) ∈ zk₂.tree.nodes := by
      by_contra hno
      have hok := hf.ok
      rw [zkGrayRollback, zkGrayDeleteNotify, zkGet_quiet_none (backlinkNode_valid sec usec) hno] at hok
      exact absurd hok (by simp)
    refine ⟨hlisted, hapart, hback, ?_⟩
    by_contra hcon
    simp only [not_or, not_forall, not_not] at hcon
    obtain ⟨h0, i, hi⟩ := hcon
    -- the second rollback stops at the missing node 0
    obtain ⟨t₃, hd, he⟩ := zkGrayDeleteNotify_quiet (n := 0)
      ((hshrunk.lookup_mem hback).trans hb.backlink) (hshrunk.leaf hb.backlinkLeaf) hlisted
      (fun c hc => ⟨zk₁.tree.valid _ (hb.client_mem hc), hshrunk.leaf (hb.clientLeaf hapart hc)⟩)
      (fun j hj => absurd hj (Nat.not_lt_zero j)) h0 (fun j => hshrunk.leaf (hb.pieceLeaf j))
    refine hf.gone _ (Or.inr (Or.inl ⟨i, rfl⟩)) ?_
    rw [zkGrayRollback, hd]
    refine (he.mem_iff _).mpr ⟨hi, ?_⟩
    rintro (⟨c, -, hc⟩ | ⟨j, hj, -⟩ | hbl)
    · exact clientNode_ne_contentNode _ _ _ hc.symm
    · exact absurd hj (Nat.not_lt_zero j)
    · exact contentNode_ne_backlinkNode _ _ _ hbl
  · intro hr
    have hshrunk : Shrunk (ReleaseNode clients (grayGenerateId sec usec)) zk₁.tree zk₂.tree :=
      hst.shrunk_begun hb hr.listed hnul
    obtain ⟨t₃, h₃, he₃⟩ := hb.deleteNotify_quiet hshrunk hr (fun h0 i hi =>
      hst.content_mem h0 (ZkTree.mem_of_lookup (hb.piece i hi)))
    obtain ⟨t₄, h₄, he₄⟩ := hb.delete_quiet hr.listed hr.apart
    refine ⟨by rw [zkGrayRollback, h₃], ?_, fun q hq => ?_⟩
    · rw [zkGrayRollback, zkGrayRollback, h₃, h₄]
      exact he₃.unique he₄
    · rw [zkGrayRollback, h₃]
      exact he₃.gone q hq

/-- A rollback that lost its connection at the first client is finished by the next. -/
theorem rollback_again_after_client : Finishes [[97]] (grayGenerateId 1 2) oneClientBegin.2.tree
    (zkGrayRollback ⟨oneClientBegin.2.tree, [none, some (.connectionLoss true)]⟩
      (grayGenerateId 1 2)).2.tree := by
  refine (@rollback_again_iff (.quiet oneNodeTree) oneClientBegin.2 oneNodeMap [[97]] 1 2
    oneClientBegin_eq (by decide) (contentNode_not_mem_oneNodeTree _) _).mpr
    ⟨by decide, ?_, ?_, Or.inl ?_⟩
  · intro c hc d hd _
    rw [List.mem_singleton.mp hc, List.mem_singleton.mp hd]
  · decide +kernel
  · decide +kernel

/-- When the answer to the last deletion is lost, the backlink is gone and the next rollback
answers an error. -/
theorem lost_answer_stops_second_rollback : oneClientBegin.1 = .ok ∧
    ¬ Finishes [[97]] (grayGenerateId 1 2) oneClientBegin.2.tree
      (zkGrayRollback ⟨oneClientBegin.2.tree, [none, none, none, none, some (.connectionLoss true)]⟩
        (grayGenerateId 1 2)).2.tree := by
  refine ⟨oneClientBegin_ok, fun h => absurd h.ok ?_⟩
  decide +kernel

/-! ### Begin and rollback -/

/-- A single path component without a `;`. -/
def HostName (c : Bytes) : Prop := slash ∉ c ∧ NulFree c ∧ backlinkDelim ∉ c

instance (c : Bytes) : Decidable (HostName c) := inferInstanceAs (Decidable (_ ∧ _ ∧ _))

section

variable {clients : List Bytes}

theorem apart_of_hostNames (h : ∀ c ∈ clients, HostName c) : Apart clients := by
  rintro c hc d hd (rfl | ⟨e, rfl⟩)
  · rfl
  · exact absurd (by simp) (h _ hd).1

/-- On the way to a node of a release of hosts there is no other node of the three kinds. -/
theorem NotifyNode.eq_releaseNode {q r : Bytes} {sec usec : Nat} (hq : NotifyNode q)
    (hhosts : ∀ c ∈ clients, HostName c) (hr : ReleaseNode clients (grayGenerateId sec usec) r)
    (ha : Above q r) : q = r := by
  have hg := (grayGenerateId_plain sec usec).not_mem_slash
  rcases hr with ⟨c, hc, rfl⟩ | ⟨i, rfl⟩ | rfl
  · rcases ha.eq_or_above (hhosts c hc).1 with h | h
    · exact h
    · have hlong := hq.le_length
      have := h.length_le
      rw [show notifyClientPrefix.length = 28 from rfl] at this
      omega
  · exact hq.eq_contentNode hg ha
  · rcases above_backlinkNode hg ha with h | h
    · exact h
    · -- a client of one character is as long as the directory of the backlinks
      exfalso
      obtain ⟨name, hne, hq⟩ := hq
      have hab : Above q (backlinkNode (grayGenerateId sec usec)) := ha
      rcases hq with rfl | rfl | rfl
      · exact not_above_client_backlink name _ hab
      · have hget := hab.getElem? (i := 22) (by simp [notifyContentPrefix, notifyPrefix])
        exact absurd (show some (98 : UInt8) = some 99 from hget) (by decide)
      · have := h.length_le
        rw [List.length_append, List.length_cons] at this
        omega

end

/-- **A begin and a rollback together are the identity** on the nodes that were there and
on the client, content and backlink nodes. -/
theorem begin_rollback_identity {zk zk₁ : Zk} {rawNodes : BytesMap} {clients : List Bytes}
    {sec usec : Nat} (hbegin : zkGrayBegin zk rawNodes clients sec usec = (.ok, zk₁))
    (hhosts : ∀ c ∈ clients, HostName c)
    (hnew : ∀ j, contentNode (grayGenerateId sec usec) j ∉ zk.tree.nodes) :
    ∃ t₂, zkGrayRollback (.quiet zk₁.tree) (grayGenerateId sec usec) = (.ok, .quiet t₂) ∧
      (∀ q ∈ zk.tree.nodes, t₂.nodes.lookup q = zk.tree.nodes.lookup q) ∧
      (∀ q, NotifyNode q → t₂.nodes.lookup q = zk.tree.nodes.lookup q) := by
  obtain ⟨nodes, content, -, -, hb, hkeep, hfresh, hway⟩ :=
    begun_of_begin hbegin (fun c hc => (hhosts c hc).2.1) hnew
  obtain ⟨t₂, hd, he⟩ := hb.delete_quiet (fun c hc => (hhosts c hc).2.2) (apart_of_hostNames hhosts)
  have hold : ∀ q ∈ zk.tree.nodes, t₂.nodes.lookup q = zk.tree.nodes.lookup q :=
    fun q hq => (he.kept q (fun hr => hfresh q hr hq)).trans (hkeep q hq)
  refine ⟨t₂, hd, hold, fun q hn => ?_⟩
  by_cases hq : q ∈ zk.tree.nodes
  · exact hold q hq
  · -- a new node of one of the kinds is a node of the release
    rw [Finmap.lookup_eq_none.mpr hq, Finmap.lookup_eq_none]
    intro hm
    obtain ⟨hm₁, hnr⟩ := (he.mem_iff q).mp hm
    obtain ⟨r, hr, ha⟩ := hway q hm₁ hq
    exact hnr (hn.eq_releaseNode hhosts hr ha ▸ hr)

theorem begin_rollback_identity_one : ∃ t₂,
    zkGrayRollback (.quiet oneClientBegin.2.tree) (grayGenerateId 1 2) = (.ok, .quiet t₂) ∧
      (∀ q ∈ oneNodeTree.nodes, t₂.nodes.lookup q = oneNodeTree.nodes.lookup q) ∧
      (∀ q, NotifyNode q → t₂.nodes.lookup q = oneNodeTree.nodes.lookup q) :=
  @begin_rollback_identity (.quiet oneNodeTree) oneClientBegin.2 oneNodeMap [[97]] 1 2
    oneClientBegin_eq (by decide) (contentNode_not_mem_oneNodeTree _)

end QConf.Manager
