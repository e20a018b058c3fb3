import QConf.Agent.Freshness

/-!
# The agent keeps the invariant

The steps of the event handlers, of the message thread and of `deque_process`
keep `Inv`.  Only two of them can lose a change, and `Kept` says where: the table
test of a handler that asked for another pending key, and a child whose status
cannot be read.
-/

namespace QConf.Agent

open Sorting

/-- The step is not one of the two that can lose a change of the key.

`test`: a handler whose pending test was about another key looks at the table
only while the key is not being loaded, or is in the table.
`status`: a listed child that is still there has a status. -/
structure Kept (T : Target) (s : State) (a : Action) : Prop where
  test : ∀ (idc : Bytes) (h : Handler) (c : Check) (rest : List Check), a = .handle idc →
    s.handler idc = some h → h.checks = c :: rest → h.stage = .tableTest → c.key = T.key →
    c.pend ≠ T.key → T.key ∈ s.pending → T.key ∈ s.tbl
  status : T.kind = .service → ∀ (names : List Bytes) (status : List Status) (c : Bytes),
    a = .fetchStatus → s.work = some ⟨T.key, .listed names status⟩ → names[status.length]? = some c →
    (∃ d st, (s.trees T.idc).get (T.path ++ slash :: c) = .ok d ∧ statusOfValue d = some st) ∨
      (s.trees T.idc).get (T.path ++ slash :: c) = .error .noNode

section

variable {conf : List Bytes} {T : Target} {s s' : State} {ρ : Progress}

/-! ### What later states keep -/

/-- More is watched and queued, and nothing else that matters for a key changed. -/
structure Grows (s s' : State) : Prop where
  trees : s'.trees = s.trees
  dataWatch : s.dataWatch ⊆ s'.dataWatch
  childWatch : s.childWatch ⊆ s'.childWatch

theorem Listed.grows {idc path : Bytes} {names : List Bytes} {status : List Status}
    (h : Listed s idc path names status) (hg : Grows s s') : Listed s' idc path names status where
  mem := by rw [hg.trees]; exact h.mem
  names_eq := by rw [hg.trees]; exact h.names_eq
  childWatch := hg.childWatch h.childWatch
  length_le := h.length_le
  status_eq i c st hi hst := by
    obtain ⟨hnow, hw⟩ := h.status_eq i c st hi hst
    exact ⟨by rw [statusNow, hg.trees]; exact hnow, hg.dataWatch hw⟩

theorem now_grows (T : Target) (hg : Grows s s') : T.now s' = T.now s := by
  unfold Target.now nodeNow batchNow serviceNow statusNow
  rw [hg.trees]

theorem Fresh.grows (h : Fresh T s ρ) (hg : Grows s s') : Fresh T s' ρ := by
  obtain ⟨kind, idc, path⟩ := T
  cases kind <;> cases ρ
  · exact h
  · exact ⟨(now_grows _ hg).trans h.1, hg.dataWatch h.2⟩
  · exact Listed.grows h hg
  · obtain ⟨names, status, hlen, hv, hl⟩ := h
    exact ⟨names, status, hlen, hv, hl.grows hg⟩
  · exact h
  · exact ⟨(now_grows _ hg).trans h.1, hg.childWatch h.2⟩

theorem Signal.congr (h : Signal T s) (hi : s'.inflight = s.inflight)
    (hh : s'.handler = s.handler) : Signal T s' := by
  unfold Signal
  rw [hi, hh]
  exact h

theorem Half.congr (h : Half T s) (hh : s'.handler = s.handler) : Half T s' := by
  unfold Half
  rw [hh]
  exact h

/-- What a step has to keep for what was read to stay covered. -/
theorem Covered.grows (h : Covered T s ρ) (hg : Grows s s') (hneed : T.key ∈ s.need → T.key ∈ s'.need)
    (hsig : Signal T s → T.key ∈ s'.need ∨ Signal T s') : Covered T s' ρ := by
  rcases h with h | h | h
  · exact Or.inl (h.grows hg)
  · exact Or.inr (Or.inl (hneed h))
  · exact Or.inr (hsig h)

/-! ### The queue -/

theorem addWatcherNode_need (s : State) (key : Bytes) : s.need ⊆ (s.addWatcherNode key).need := by
  unfold State.addWatcherNode
  split
  · exact List.Subset.refl _
  · split
    · exact List.Subset.refl _
    · exact List.subset_append_left _ _

theorem mem_addWatcherNode {key : Bytes} (he : s.exist = s.need.toFinset) (hk : key ≠ []) :
    key ∈ (s.addWatcherNode key).need := by
  unfold State.addWatcherNode
  rw [if_neg hk]
  split
  · next h =>
    rw [he, List.mem_toFinset] at h
    exact h
  · simp

theorem addWatcherNode_queue (key : Bytes) (hn : s.need.Nodup) (he : s.exist = s.need.toFinset) :
    (s.addWatcherNode key).need.Nodup ∧
      (s.addWatcherNode key).exist = (s.addWatcherNode key).need.toFinset := by
  unfold State.addWatcherNode
  split
  · exact ⟨hn, he⟩
  · split
    · exact ⟨hn, he⟩
    · next h =>
      rw [he, List.mem_toFinset] at h
      refine ⟨List.nodup_append.mpr ⟨hn, List.nodup_singleton _, ?_⟩, ?_⟩
      · intro a ha b hb hab
        rw [List.mem_singleton] at hb
        exact h (hb ▸ hab ▸ ha)
      · rw [he, List.toFinset_append, Finset.insert_eq, Finset.union_comm]
        rfl

/-- `add_watcher_node` touches the queue only. -/
theorem addWatcherNode_frame (s : State) (key : Bytes) :
    ∃ need exist, s.addWatcherNode key = { s with need := need, exist := exist } := by
  unfold State.addWatcherNode
  split
  · exact ⟨s.need, s.exist, rfl⟩
  · split
    · exact ⟨s.need, s.exist, rfl⟩
    · exact ⟨_, _, rfl⟩

/-- Keys were added to the queue. -/
structure Queued (s s₁ : State) : Prop where
  frame : ∃ need exist, s₁ = { s with need := need, exist := exist }
  subset : s.need ⊆ s₁.need
  nodup : s.need.Nodup → s.exist = s.need.toFinset → s₁.need.Nodup
  exist : s.need.Nodup → s.exist = s.need.toFinset → s₁.exist = s₁.need.toFinset

theorem Queued.refl (s : State) : Queued s s :=
  ⟨⟨s.need, s.exist, rfl⟩, List.Subset.refl _, fun h _ => h, fun _ h => h⟩

theorem queued_addWatcherNode (s : State) (key : Bytes) : Queued s (s.addWatcherNode key) :=
  ⟨addWatcherNode_frame s key, addWatcherNode_need s key,
    fun hn he => (addWatcherNode_queue key hn he).1, fun hn he => (addWatcherNode_queue key hn he).2⟩

/-- The invariant survives a key in the queue. -/
theorem Inv.queued (h : Inv conf T s) (hq : Queued s s') : Inv conf T s' := by
  obtain ⟨need, exist, rfl⟩ := hq.frame
  have hcov : ∀ {ρ}, Covered T s ρ → Covered T { s with need := need, exist := exist } ρ :=
    fun hc => hc.grows ⟨rfl, Finset.Subset.refl _, Finset.Subset.refl _⟩ (fun hk => hq.subset hk)
      (fun hsig => Or.inr (hsig.congr rfl rfl))
  exact {
    nodup := hq.nodup h.nodup h.exist
    exist := hq.exist h.nodup h.exist
    pending := h.pending
    checks := h.checks
    readable := h.readable
    table := fun v hv hw => (h.table v hv hw).imp hcov (fun hh => hh.congr rfl)
    progress := fun ρ hw => hcov (h.progress ρ hw)
    settled := fun ph hw hph v hv => hcov (h.settled ph hw hph v hv) }

/-! ### The event handlers -/

theorem setHandler_self (s : State) (idc : Bytes) (o : Option Handler) :
    (s.setHandler idc o).handler idc = o := Function.update_self _ _ _

theorem setHandler_of_ne (s : State) {idc idc' : Bytes} (o : Option Handler) (h : idc' ≠ idc) :
    (s.setHandler idc o).handler idc' = s.handler idc' := Function.update_of_ne h _ _

theorem Handler.counts_rest {e : Event} {rest : List Check} {key : Bytes}
    (h : ∃ c ∈ rest, c.key = key) : Handler.Counts ⟨e, .pendingTest, rest⟩ key := by
  cases rest with
  | nil => exact absurd h (by simp)
  | cons c rest =>
    obtain ⟨c', hc', hkey⟩ := h
    rcases List.mem_cons.mp hc' with rfl | hc'
    · exact Or.inl hkey
    · exact Or.inr ⟨c', hc', hkey⟩

/-- What a step of the handler of `idc` does to the state: the next handler, and
perhaps a key in the queue. -/
theorem handle_frame (s : State) (idc : Bytes) (h : Handler) : ∃ s₁ o,
    s.handle idc h = s₁.setHandler idc o ∧ Queued s s₁ ∧
      ∀ h', o = some h' → h'.event = h.event ∧ h'.checks <:+ h.checks := by
  unfold State.handle
  cases hc : h.checks with
  | nil => exact ⟨s, none, rfl, .refl s, fun h' ho => absurd ho (by simp)⟩
  | cons c rest =>
    have hsame : ∀ (stage : Stage) (h' : Handler), some ⟨h.event, stage, c :: rest⟩ = some h' →
        h'.event = h.event ∧ h'.checks <:+ c :: rest := by
      intro stage h' ho
      cases ho
      exact ⟨rfl, List.suffix_refl _⟩
    have hnext : ∀ h' : Handler, some ⟨h.event, .pendingTest, rest⟩ = some h' →
        h'.event = h.event ∧ h'.checks <:+ c :: rest := by
      intro h' ho
      cases ho
      exact ⟨rfl, List.suffix_cons c rest⟩
    dsimp only
    cases h.stage with
    | pendingTest =>
      dsimp only
      split
      · exact ⟨s, _, rfl, .refl s, hsame _⟩
      · exact ⟨s, _, rfl, .refl s, hsame _⟩
    | tableTest =>
      dsimp only
      split
      · exact ⟨s, _, rfl, .refl s, hsame _⟩
      · exact ⟨s, _, rfl, .refl s, hnext⟩
    | addNode => exact ⟨s.addWatcherNode c.key, _, rfl, queued_addWatcherNode s c.key, hnext⟩

theorem signal_update {s₁ : State} {h : Handler} (hc : h.Counts T.key) :
    Signal T (s₁.setHandler T.idc (some h)) :=
  Or.inr ⟨h, setHandler_self _ _ _, hc⟩

/-- **One step of the handler that will queue the key**: it queues it, or still
will, or found it not pending, or drops it because another key was not pending. -/
theorem Handler.Counts.step {h : Handler} (hc : h.Counts T.key) (he : s.exist = s.need.toFinset) :
    T.key ∈ (s.handle T.idc h).need ∨ Signal T (s.handle T.idc h) ∨
      (Half T (s.handle T.idc h) ∧ T.key ∉ s.pending) ∨
      ∃ c rest, h.checks = c :: rest ∧ h.stage = .tableTest ∧ c.key = T.key ∧ c.pend ≠ T.key ∧
        T.key ∉ s.tbl := by
  unfold Handler.Counts at hc
  unfold State.handle
  cases hck : h.checks with
  | nil => rw [hck] at hc; exact absurd hc (by simp)
  | cons c rest =>
    rw [hck] at hc
    dsimp only at hc ⊢
    -- the tests behind the front stay in front of the handler
    have hrest : ∀ (s₁ : State) (stage : Stage), (∃ c ∈ rest, c.key = T.key) →
        Signal T (s₁.setHandler T.idc (some ⟨h.event, stage, c :: rest⟩)) :=
      fun s₁ stage hr => signal_update (Or.inr hr)
    have hnext : ∀ (s₁ : State), (∃ c ∈ rest, c.key = T.key) →
        Signal T (s₁.setHandler T.idc (some ⟨h.event, .pendingTest, rest⟩)) :=
      fun s₁ hr => signal_update (Handler.counts_rest hr)
    cases hst : h.stage with
    | pendingTest =>
      rw [hst] at hc
      dsimp only
      by_cases hp : c.pend ∈ s.pending
      · rw [if_pos hp]
        rcases hc with hkey | hr
        · exact Or.inr (Or.inl (signal_update (Or.inl hkey)))
        · exact Or.inr (Or.inl (hrest _ _ hr))
      · rw [if_neg hp]
        rcases hc with hkey | hr
        · by_cases hck' : c.pend = T.key
          · exact Or.inr (Or.inr (Or.inl ⟨⟨⟨h.event, .tableTest, c :: rest⟩, c, rest,
              setHandler_self _ _ _, rfl, rfl, hkey, hck'⟩, hck' ▸ hp⟩))
          · exact Or.inr (Or.inl (signal_update (Or.inl ⟨hkey, hck'⟩)))
        · exact Or.inr (Or.inl (hrest _ _ hr))
    | tableTest =>
      rw [hst] at hc
      dsimp only
      by_cases hp : c.key ∈ s.tbl
      · rw [if_pos hp]
        rcases hc with hkey | hr
        · exact Or.inr (Or.inl (signal_update (Or.inl hkey.1)))
        · exact Or.inr (Or.inl (hrest _ _ hr))
      · rw [if_neg hp]
        rcases hc with hkey | hr
        · exact Or.inr (Or.inr (Or.inr ⟨c, rest, rfl, rfl, hkey.1, hkey.2, hkey.1 ▸ hp⟩))
        · exact Or.inr (Or.inl (hnext _ hr))
    | addNode =>
      rw [hst] at hc
      dsimp only
      rcases hc with hkey | hr
      · refine Or.inl ?_
        have := mem_addWatcherNode (s := s) he T.key_ne_nil
        rw [← hkey] at this ⊢
        exact this
      · exact Or.inr (Or.inl (hnext _ hr))

/-- The handler that is about to look at the table finds the key there. -/
theorem Half.step {h : Handler} (hh : Half T s) (hs : s.handler T.idc = some h) (hk : T.key ∈ s.tbl) :
    Signal T (s.handle T.idc h) := by
  obtain ⟨h', c, rest, hh', hck, hst, hkey, -⟩ := hh
  rw [hs, Option.some.injEq] at hh'
  subst hh'
  unfold State.handle
  rw [hck, hst]
  dsimp only
  rw [if_pos (hkey ▸ hk)]
  exact signal_update (Or.inl hkey)

/-- The signals of a key after a step of any handler. -/
theorem Signal.handle {idc : Bytes} {h : Handler} (hs : Signal T s) (hh : s.handler idc = some h)
    (he : s.exist = s.need.toFinset) :
    T.key ∈ (s.handle idc h).need ∨ Signal T (s.handle idc h) ∨
      (Half T (s.handle idc h) ∧ T.key ∉ s.pending) ∨
      ∃ c rest, h.checks = c :: rest ∧ h.stage = .tableTest ∧ c.key = T.key ∧ c.pend ≠ T.key ∧
        T.key ∉ s.tbl := by
  obtain ⟨s₁, o, hs', hq, -⟩ := handle_frame s idc h
  obtain ⟨need, exist, rfl⟩ := hq.frame
  rcases hs with ⟨e, hmem, hc⟩ | ⟨h', hh', hc⟩
  · refine Or.inr (Or.inl (Or.inl ⟨e, ?_, hc⟩))
    rw [hs']
    exact hmem
  · by_cases hi : T.idc = idc
    · subst hi
      rw [hh, Option.some.injEq] at hh'
      subst hh'
      exact hc.step he
    · refine Or.inr (Or.inl (Or.inr ⟨h', ?_, hc⟩))
      rw [hs']
      exact (setHandler_of_ne _ _ hi).trans hh'

/-- A handler that is about to look at the table, after a step of any handler. -/
theorem Half.handle {idc : Bytes} {h : Handler} (hs : Half T s) (hh : s.handler idc = some h)
    (hk : T.key ∈ s.tbl) : Signal T (s.handle idc h) ∨ Half T (s.handle idc h) := by
  by_cases hi : T.idc = idc
  · subst hi
    exact Or.inl (hs.step hh hk)
  · obtain ⟨s₁, o, hs', hq, -⟩ := handle_frame s idc h
    obtain ⟨need, exist, rfl⟩ := hq.frame
    obtain ⟨h', c, rest, hh', hrest⟩ := hs
    refine Or.inr ⟨h', c, rest, ?_, hrest⟩
    rw [hs']
    exact (setHandler_of_ne _ _ hi).trans hh'

/-- **The event handlers keep the invariant.** -/
theorem Inv.handle {idc : Bytes} {h : Handler} (hi : Inv conf T s) (hh : s.handler idc = some h)
    (hk : Kept T s (.handle idc)) : Inv conf T (s.handle idc h) := by
  -- a key being loaded keeps its signal
  have hpend : ∀ {ρ}, T.key ∈ s.pending → Covered T s ρ → Covered T (s.handle idc h) ρ := by
    intro ρ hp hc
    obtain ⟨s₁, o, hs', hq, -⟩ := handle_frame s idc h
    obtain ⟨need, exist, rfl⟩ := hq.frame
    refine hc.grows ?_ ?_ fun hs => ?_
    · rw [hs']
      exact ⟨rfl, Finset.Subset.refl _, Finset.Subset.refl _⟩
    · rw [hs']
      exact fun hn => hq.subset hn
    · rcases hs.handle hh hi.exist with h1 | h1 | ⟨-, h1⟩ | ⟨c, rest, hck, hst, hkey, hne, htbl⟩
      · exact Or.inl h1
      · exact Or.inr h1
      · exact absurd hp h1
      · exact absurd (hk.test idc h c rest rfl hh hck hst hkey hne hp) htbl
  have htable : ∀ {ρ}, T.key ∈ s.tbl → Covered T s ρ ∨ Half T s →
      Covered T (s.handle idc h) ρ ∨ Half T (s.handle idc h) := by
    intro ρ ht hc
    obtain ⟨s₁, o, hs', hq, -⟩ := handle_frame s idc h
    obtain ⟨need, exist, rfl⟩ := hq.frame
    rcases hc with (hf | hn | hs) | hs
    · refine Or.inl (Or.inl (hf.grows ?_))
      rw [hs']
      exact ⟨rfl, Finset.Subset.refl _, Finset.Subset.refl _⟩
    · refine Or.inl (Or.inr (Or.inl ?_))
      rw [hs']
      exact hq.subset hn
    · rcases hs.handle hh hi.exist with h1 | h1 | ⟨h1, -⟩ | ⟨_, _, -, -, -, -, htbl⟩
      · exact Or.inl (Or.inr (Or.inl h1))
      · exact Or.inl (Or.inr (Or.inr h1))
      · exact Or.inr h1
      · exact absurd ht htbl
    · exact (hs.handle hh ht).imp (fun h1 => Or.inr (Or.inr h1)) id
  obtain ⟨s₁, o, hs', hq, hnext⟩ := handle_frame s idc h
  obtain ⟨need, exist, rfl⟩ := hq.frame
  rw [hs'] at hpend htable ⊢
  exact {
    nodup := hq.nodup hi.nodup hi.exist
    exist := hq.exist hi.nodup hi.exist
    pending := hi.pending
    checks := by
      intro idc' h' hh'
      by_cases hii : idc' = idc
      · subst hii
        obtain ⟨hev, hsuf⟩ := hnext h' ((setHandler_self _ _ _).symm.trans hh')
        rw [hev]
        exact hsuf.trans (hi.checks _ h hh)
      · exact hi.checks idc' h' ((setHandler_of_ne _ _ hii).symm.trans hh')
    readable := hi.readable
    table := fun v hv hw => htable (ZkTree.mem_of_lookup hv) (hi.table v hv hw)
    progress := fun ρ hw => hpend ((hi.pending _).mpr ⟨ρ.phase, hw, by cases ρ <;> simp [Progress.phase]⟩)
      (hi.progress ρ hw)
    settled := fun ph hw hph v hv => hpend ((hi.pending _).mpr ⟨ph, hw, by rcases hph with rfl | rfl <;> simp⟩)
      (hi.settled ph hw hph v hv) }

/-- An event arrives at its handler. -/
theorem Inv.deliver {idc : Bytes} {e : Event} {rest : List Event} (hi : Inv conf T s)
    (hh : s.handler idc = none) (he : s.inflight idc = e :: rest) :
    Inv conf T ({ s with inflight := Function.update s.inflight idc rest }.setHandler idc
      (some ⟨e, .pendingTest, checksOf idc e⟩)) := by
  set s' := ({ s with inflight := Function.update s.inflight idc rest }.setHandler idc
      (some ⟨e, .pendingTest, checksOf idc e⟩)) with hs'
  have hsig : Signal T s → Signal T s' := by
    intro hs
    by_cases hii : T.idc = idc
    · rcases hs with ⟨e', hmem, hc⟩ | ⟨h', hh', -⟩
      · rw [hii, he] at hmem
        rcases List.mem_cons.mp hmem with rfl | hmem
        · refine Or.inr ⟨⟨e', .pendingTest, checksOf idc e'⟩, ?_, ?_⟩
          · rw [hii]
            exact setHandler_self _ _ _
          · rw [← hii]
            exact Handler.counts_rest hc
        · refine Or.inl ⟨e', ?_, hc⟩
          show e' ∈ Function.update s.inflight idc rest T.idc
          rw [hii, Function.update_self]
          exact hmem
      · rw [hii, hh] at hh'
        exact absurd hh' (by simp)
    · rcases hs with ⟨e', hmem, hc⟩ | ⟨h', hh', hc⟩
      · refine Or.inl ⟨e', ?_, hc⟩
        show e' ∈ Function.update s.inflight idc rest T.idc
        rw [Function.update_of_ne hii]
        exact hmem
      · exact Or.inr ⟨h', (setHandler_of_ne _ _ hii).trans hh', hc⟩
  have hhalf : Half T s → Half T s' := by
    rintro ⟨h', c, rest', hh', hr⟩
    have hii : T.idc ≠ idc := by
      intro hii
      rw [hii, hh] at hh'
      exact absurd hh' (by simp)
    exact ⟨h', c, rest', (setHandler_of_ne _ _ hii).trans hh', hr⟩
  have hcov : ∀ {ρ}, Covered T s ρ → Covered T s' ρ := fun hc =>
    hc.grows ⟨rfl, Finset.Subset.refl _, Finset.Subset.refl _⟩ (fun hn => hn) (fun hs => Or.inr (hsig hs))
  exact {
    nodup := hi.nodup
    exist := hi.exist
    pending := hi.pending
    checks := by
      intro idc' h' hh'
      by_cases hii : idc' = idc
      · subst hii
        have : some (⟨e, .pendingTest, checksOf idc' e⟩ : Handler) = some h' :=
          (setHandler_self _ _ _).symm.trans hh'
        cases this
        exact List.suffix_refl _
      · exact hi.checks idc' h' ((setHandler_of_ne _ _ hii).symm.trans hh')
    readable := hi.readable
    table := fun v hv hw => (hi.table v hv hw).imp hcov hhalf
    progress := fun ρ hw => hcov (hi.progress ρ hw)
    settled := fun ph hw hph v hv => hcov (hi.settled ph hw hph v hv) }

/-! ### The steps of `deque_process` -/

/-- An eviction takes a key from the table. -/
theorem Inv.evict (hi : Inv conf T s) (key : Bytes) : Inv conf T { s with tbl := s.tbl.erase key } := by
  have hcov : ∀ {ρ}, Covered T s ρ → Covered T { s with tbl := s.tbl.erase key } ρ := fun hc =>
    hc.grows ⟨rfl, Finset.Subset.refl _, Finset.Subset.refl _⟩ id (fun hs => Or.inr (hs.congr rfl rfl))
  exact {
    nodup := hi.nodup
    exist := hi.exist
    pending := hi.pending
    checks := hi.checks
    readable := fun h => hi.readable (h.imp (fun hm => (Finmap.mem_erase.mp hm).2) id)
    table := fun v hv hw => (hi.table v (lookup_erase_iff.mp hv).2 hw).imp hcov (fun h => h.congr rfl)
    progress := fun ρ hw => hcov (hi.progress ρ hw)
    settled := fun ph hw hph v hv => hcov (hi.settled ph hw hph v (lookup_erase_iff.mp hv).2) }

theorem Inv.pop {key : Bytes} {rest : List Bytes} (hi : Inv conf T s) (hw : s.work = none)
    (hn : s.need = key :: rest) :
    Inv conf T { s with need := rest, exist := s.exist.erase key, work := some ⟨key, .popped⟩ } := by
  have hnd := hi.nodup
  rw [hn, List.nodup_cons] at hnd
  exact {
    nodup := hnd.2
    exist := by
      show s.exist.erase key = rest.toFinset
      rw [hi.exist, hn, List.toFinset_cons, Finset.erase_insert]
      rw [List.mem_toFinset]
      exact hnd.1
    pending := fun k => by
      rw [hi.pending, hw]
      simp only [reduceCtorEq, false_and, exists_false, Option.some.injEq, Work.mk.injEq, false_iff]
      rintro ⟨ph, ⟨-, rfl⟩, hph⟩
      exact hph rfl
    checks := hi.checks
    readable := by
      rintro (hm | ⟨ρ, hρ⟩)
      · exact hi.readable (Or.inl hm)
      · cases ρ <;> simp [Progress.phase] at hρ
    table := fun v hv hne => by
      -- the key that leaves the queue is another one
      have hkey : T.key ≠ key := fun h => hne .popped (by rw [h])
      refine (hi.table v hv (by rw [hw]; simp)).imp (fun hc => ?_) (fun h => h.congr rfl)
      refine hc.grows ⟨rfl, Finset.Subset.refl _, Finset.Subset.refl _⟩ (fun hm => ?_)
        (fun hs => Or.inr (hs.congr rfl rfl))
      rw [hn] at hm
      exact (List.mem_cons.mp hm).resolve_left hkey
    progress := fun ρ hρ => by cases ρ <;> simp [Progress.phase] at hρ
    settled := fun ph hp hph => by
      simp only [Option.some.injEq, Work.mk.injEq] at hp
      rcases hph with rfl | rfl
      · exact absurd hp.2 (by simp)
      · exact absurd hp.2 (by simp) }

theorem Inv.addPending {key : Bytes} (hi : Inv conf T s) (hw : s.work = some ⟨key, .popped⟩) :
    Inv conf T ({ s with pending := insert key s.pending }.setPhase key .pending) := by
  have hcov : ∀ {ρ}, Covered T s ρ →
      Covered T ({ s with pending := insert key s.pending }.setPhase key .pending) ρ := fun hc =>
    hc.grows ⟨rfl, Finset.Subset.refl _, Finset.Subset.refl _⟩ id (fun hs => Or.inr (hs.congr rfl rfl))
  exact {
    nodup := hi.nodup
    exist := hi.exist
    pending := fun k => by
      show k ∈ insert key s.pending ↔ _
      rw [Finset.mem_insert, hi.pending, hw]
      simp only [State.setPhase, Option.some.injEq, Work.mk.injEq]
      constructor
      · rintro (rfl | ⟨ph, ⟨-, rfl⟩, hph⟩)
        · exact ⟨.pending, ⟨rfl, rfl⟩, by simp⟩
        · exact absurd rfl hph
      · rintro ⟨ph, ⟨rfl, -⟩, -⟩
        exact Or.inl rfl
    checks := hi.checks
    readable := by
      rintro (hm | ⟨ρ, hρ⟩)
      · exact hi.readable (Or.inl hm)
      · cases ρ <;> simp [Progress.phase, State.setPhase] at hρ
    table := fun v hv hne => (hi.table v hv (fun ph hp => by
      rw [hw, Option.some.injEq, Work.mk.injEq] at hp
      exact hne .pending (by rw [← hp.1]; rfl))).imp hcov (fun h => h.congr rfl)
    progress := fun ρ hρ => by cases ρ <;> simp [Progress.phase, State.setPhase] at hρ
    settled := fun ph hp hph => by
      simp only [State.setPhase, Option.some.injEq, Work.mk.injEq] at hp
      rcases hph with rfl | rfl
      · exact absurd hp.2 (by simp)
      · exact absurd hp.2 (by simp) }

theorem Inv.delPending {key : Bytes} (hi : Inv conf T s) (hw : s.work = some ⟨key, .written⟩) :
    Inv conf T { s with pending := s.pending.erase key, work := none } := by
  have hcov : ∀ {ρ}, Covered T s ρ →
      Covered T { s with pending := s.pending.erase key, work := none } ρ := fun hc =>
    hc.grows ⟨rfl, Finset.Subset.refl _, Finset.Subset.refl _⟩ id (fun hs => Or.inr (hs.congr rfl rfl))
  exact {
    nodup := hi.nodup
    exist := hi.exist
    pending := fun k => by
      show k ∈ s.pending.erase key ↔ _
      rw [Finset.mem_erase, hi.pending, hw]
      simp only [reduceCtorEq, false_and, exists_false, iff_false, Option.some.injEq, Work.mk.injEq]
      rintro ⟨hne, ph, ⟨rfl, -⟩, -⟩
      exact hne rfl
    checks := hi.checks
    readable := by
      rintro (hm | ⟨ρ, hρ⟩)
      · exact hi.readable (Or.inl hm)
      · exact absurd hρ (by simp)
    table := fun v hv _ => by
      by_cases hk : key = T.key
      · exact Or.inl (hcov (hi.settled .written (hk ▸ hw) (Or.inr rfl) v hv))
      · refine (hi.table v hv (fun ph hp => ?_)).imp hcov (fun h => h.congr rfl)
        rw [hw, Option.some.injEq, Work.mk.injEq] at hp
        exact hk hp.1
    progress := fun ρ hρ => absurd hρ (by simp)
    settled := fun ph hp => absurd hp (by simp) }

/-- `deque_process` goes on with its key: more may be watched, and the table may
change. -/
structure Processed (s s' : State) (key : Bytes) (ph : Phase) : Prop where
  grows : Grows s s'
  inflight : s'.inflight = s.inflight
  handler : s'.handler = s.handler
  need : s'.need = s.need
  exist : s'.exist = s.exist
  pending : s'.pending = s.pending
  work : s'.work = some ⟨key, ph⟩
  tbl : ∀ k, k ≠ key → s'.tbl.lookup k = s.tbl.lookup k

theorem Covered.processed {key : Bytes} {ph : Phase} (hc : Covered T s ρ) (hp : Processed s s' key ph) :
    Covered T s' ρ :=
  hc.grows hp.grows (fun hm => by rw [hp.need]; exact hm)
    (fun hs => Or.inr (hs.congr hp.inflight hp.handler))

/-- **A step of `deque_process` with its key**: what is left to show is about the
key itself. -/
theorem Inv.processed {key : Bytes} {ph₀ ph : Phase} (hi : Inv conf T s)
    (hw : s.work = some ⟨key, ph₀⟩) (hph₀ : ph₀ ≠ .popped) (hp : Processed s s' key ph)
    (hph : ph ≠ .popped)
    (hread : key = T.key → T.key ∈ s'.tbl ∨ (∃ ρ : Progress, ph = ρ.phase) → Readable conf T)
    (hprog : key = T.key → ∀ ρ : Progress, ph = ρ.phase → Covered T s' ρ)
    (hset : key = T.key → ph = .failed ∨ ph = .written →
      ∀ v, s'.tbl.lookup T.key = some v → Covered T s' (.value v)) : Inv conf T s' := by
  exact {
    nodup := by rw [hp.need]; exact hi.nodup
    exist := by rw [hp.need, hp.exist]; exact hi.exist
    pending := fun k => by
      rw [hp.pending, hi.pending, hw, hp.work]
      simp only [Option.some.injEq, Work.mk.injEq]
      constructor
      · rintro ⟨_, ⟨rfl, -⟩, -⟩
        exact ⟨ph, ⟨rfl, rfl⟩, hph⟩
      · rintro ⟨_, ⟨rfl, -⟩, -⟩
        exact ⟨ph₀, ⟨rfl, rfl⟩, hph₀⟩
    checks := by rw [hp.handler]; exact hi.checks
    readable := fun h => by
      by_cases hk : key = T.key
      · refine hread hk (h.imp id ?_)
        rintro ⟨ρ, hρ⟩
        rw [hp.work, Option.some.injEq, Work.mk.injEq] at hρ
        exact ⟨ρ, hρ.2⟩
      · rcases h with hm | ⟨ρ, hρ⟩
        · rw [← Finmap.lookup_isSome, hp.tbl _ (Ne.symm hk), Finmap.lookup_isSome] at hm
          exact hi.readable (Or.inl hm)
        · rw [hp.work, Option.some.injEq, Work.mk.injEq] at hρ
          exact absurd hρ.1 hk
    table := fun v hv hne => by
      have hk : key ≠ T.key := fun hk => hne ph (by rw [hp.work, hk])
      rw [hp.tbl _ (Ne.symm hk)] at hv
      refine (hi.table v hv (fun ph' hp' => ?_)).imp (fun hc => hc.processed hp)
        (fun h => h.congr hp.handler)
      rw [hw, Option.some.injEq, Work.mk.injEq] at hp'
      exact hk hp'.1
    progress := fun ρ hρ => by
      rw [hp.work, Option.some.injEq, Work.mk.injEq] at hρ
      exact hprog hρ.1 ρ hρ.2
    settled := fun ph' hp' hph' v hv => by
      rw [hp.work, Option.some.injEq, Work.mk.injEq] at hp'
      exact hset hp'.1 (hp'.2 ▸ hph') v hv }

theorem processed_setPhase (key : Bytes) (ph : Phase) {dw cw : Finset (Bytes × Bytes)}
    (hd : s.dataWatch ⊆ dw) (hc : s.childWatch ⊆ cw) :
    Processed s ({ s with dataWatch := dw, childWatch := cw }.setPhase key ph) key ph :=
  ⟨⟨rfl, hd, hc⟩, rfl, rfl, rfl, rfl, rfl, rfl, fun _ _ => rfl⟩

/-- The table is written. -/
theorem Inv.write {key : Bytes} {ph : Phase} {fits : Bool} (hi : Inv conf T s)
    (hw : s.work = some ⟨key, ph⟩) (h : s.write key fits ph = some s') : Inv conf T s' := by
  unfold State.write at h
  split at h
  · -- a value was read
    next tblval =>
    rw [Option.some.injEq] at h
    subst h
    set tbl := if fits = true then s.tbl.insert key tblval else s.tbl.erase key with htbl
    have hp : Processed s ({ s with tbl := tbl }.setPhase key .written) key .written := by
      refine ⟨⟨rfl, Finset.Subset.refl _, Finset.Subset.refl _⟩, rfl, rfl, rfl, rfl, rfl, rfl,
        fun k hk => ?_⟩
      show tbl.lookup k = s.tbl.lookup k
      rw [htbl]
      split
      · rw [Finmap.lookup_insert_of_ne _ hk]
      · rw [Finmap.lookup_erase_ne hk]
    refine hi.processed hw (by simp) hp (by simp) (fun hk _ => ?_) (fun _ ρ hρ => ?_)
      (fun hk _ v hv => ?_)
    · exact hi.readable (Or.inr ⟨.value tblval, hk ▸ hw⟩)
    · cases ρ <;> simp [Progress.phase] at hρ
    · have hv' : tbl.lookup T.key = some v := hv
      rw [htbl] at hv'
      split at hv'
      · rw [← hk, Finmap.lookup_insert, Option.some.injEq] at hv'
        subst hv'
        exact (hi.progress (.value tblval) (hk ▸ hw)).processed hp
      · rw [← hk, Finmap.lookup_erase] at hv'
        exact absurd hv' (by simp)
  · -- the node is gone
    rw [Option.some.injEq] at h
    subst h
    have hp : Processed s ({ s with tbl := s.tbl.erase key }.setPhase key .written) key .written :=
      ⟨⟨rfl, Finset.Subset.refl _, Finset.Subset.refl _⟩, rfl, rfl, rfl, rfl, rfl, rfl,
        fun k hk => Finmap.lookup_erase_ne hk⟩
    refine hi.processed hw (by simp) hp (by simp) (fun hk hm => ?_) (fun _ ρ hρ => ?_)
      (fun hk _ v hv => ?_)
    · rcases hm with hm | ⟨ρ, hρ⟩
      · exact hi.readable (Or.inl (Finmap.mem_erase.mp hm).2)
      · cases ρ <;> simp [Progress.phase] at hρ
    · cases ρ <;> simp [Progress.phase] at hρ
    · exact absurd hk.symm (lookup_erase_iff.mp hv).1
  · -- nothing was read
    rw [Option.some.injEq] at h
    subst h
    have hp : Processed s (s.setPhase key .written) key .written :=
      processed_setPhase key .written (Finset.Subset.refl _) (Finset.Subset.refl _)
    refine hi.processed hw (by simp) hp (by simp) (fun hk hm => ?_) (fun _ ρ hρ => ?_)
      (fun hk _ v hv => ?_)
    · rcases hm with hm | ⟨ρ, hρ⟩
      · exact hi.readable (Or.inl hm)
      · cases ρ <;> simp [Progress.phase] at hρ
    · cases ρ <;> simp [Progress.phase] at hρ
    · exact (hi.settled .failed (hk ▸ hw) (Or.inl rfl) v hv).processed hp
  · exact absurd h (by simp)

/-! ### Reading from ZooKeeper -/

theorem zkGetNode_cases (s : State) (idc path : Bytes) :
    (∃ d, (s.trees idc).nodes.lookup (cStr path) = some d ∧
      s.zkGetNode idc path = (.ok (d.take maxValueSize),
        { s with dataWatch := insert (idc, cStr path) s.dataWatch })) ∨
    ∃ e, (s.trees idc).get (cStr path) = .error e ∧ s.zkGetNode idc path = (.error e, s) := by
  unfold State.zkGetNode
  cases hg : (s.trees idc).get (cStr path) with
  | ok d => exact Or.inl ⟨d, ZkTree.get_eq_ok.mp hg, rfl⟩
  | error e => exact Or.inr ⟨e, rfl, rfl⟩

theorem zkGetChdnodes_cases {o : Except ZooErr (List Bytes) × State} {idc path : Bytes}
    {order : List Bytes} (h : s.zkGetChdnodes idc path order = some o) :
    (cStr path ∈ (s.trees idc).nodes ∧
      o = (.ok (sortBytes ((s.trees idc).children (cStr path))),
        { s with childWatch := insert (idc, cStr path) s.childWatch })) ∨
    ∃ e, (s.trees idc).getChildren (cStr path) = .error e ∧ o = (.error e, s) := by
  unfold State.zkGetChdnodes at h
  cases hg : (s.trees idc).getChildren (cStr path) with
  | ok names =>
    rw [hg] at h
    dsimp only at h
    split at h
    · next hord =>
      obtain ⟨hm, rfl⟩ := ZkTree.getChildren_ok hg
      refine Or.inl ⟨hm, ?_⟩
      rw [← Option.some.inj h, insertionSort_eq_sortedList hord.1, hord.2]
      rfl
    · exact absurd h (by simp)
  | error e =>
    rw [hg] at h
    exact Or.inr ⟨e, rfl, (Option.some.inj h).symm⟩

theorem processed_self (s : State) (key : Bytes) (ph : Phase) :
    Processed s (s.setPhase key ph) key ph :=
  processed_setPhase key ph (Finset.Subset.refl _) (Finset.Subset.refl _)

/-- The first read of any key goes on with that key and leaves the table alone. -/
theorem fetch_processed {key : Bytes} {order : List Bytes} (h : s.fetch conf key order = some s') :
    ∃ ph, Processed s s' key ph ∧ ph ≠ .popped ∧ s'.tbl = s.tbl := by
  have hself : ∀ ph, ph ≠ .popped → some (s.setPhase key ph) = some s' →
      ∃ ph, Processed s s' key ph ∧ ph ≠ .popped ∧ s'.tbl = s.tbl := by
    intro ph hph hs
    cases hs
    exact ⟨ph, processed_self s key ph, hph, rfl⟩
  have hchild : ∀ (idc path : Bytes) (ph : Phase), ph ≠ .popped →
      some ({ s with childWatch := insert (idc, path) s.childWatch }.setPhase key ph) = some s' →
      ∃ ph, Processed s s' key ph ∧ ph ≠ .popped ∧ s'.tbl = s.tbl := by
    intro idc path ph hph hs
    cases hs
    exact ⟨ph, processed_setPhase key ph (Finset.Subset.refl _) (Finset.subset_insert _ _), hph, rfl⟩
  unfold State.fetch State.process at h
  dsimp only at h
  split at h
  · exact hself _ (by simp) h
  split at h
  · rcases zkGetNode_cases s (deserializeFromTblkey key).idc (deserializeFromTblkey key).path with
      ⟨d, -, hd⟩ | ⟨e, -, he⟩
    · rw [hd] at h
      cases h
      exact ⟨_, processed_setPhase key _ (Finset.subset_insert _ _) (Finset.Subset.refl _), by simp, rfl⟩
    · rw [he] at h
      cases e <;> exact hself _ (by simp) h
  split at h
  · exact hself _ (by simp) h
  split at h
  · split at h
    · exact absurd h (by simp)
    all_goals
      next ho =>
      rcases zkGetChdnodes_cases ho with ⟨-, ho⟩ | ⟨e, -, ho⟩ <;> cases ho
      first
        | exact hchild _ _ _ (by simp) h
        | exact hself _ (by simp) h
  split at h
  · split at h
    · exact absurd h (by simp)
    all_goals
      next ho =>
      rcases zkGetChdnodes_cases ho with ⟨-, ho⟩ | ⟨e, -, ho⟩ <;> cases ho
      first
        | exact hchild _ _ _ (by simp) h
        | exact hself _ (by simp) h
  · exact hself _ (by simp) h

/-- What the first read of the key leaves: what was read is what ZooKeeper holds
and is watched, or the node is gone, or the key can never be read. -/
def Fetched (conf : List Bytes) (T : Target) (s' : State) : Prop :=
  (∃ ρ : Progress, s'.work = some ⟨T.key, ρ.phase⟩ ∧ Fresh T s' ρ ∧ Readable conf T) ∨
    s'.work = some ⟨T.key, .gone⟩ ∨ (s'.work = some ⟨T.key, .failed⟩ ∧ ¬ Readable conf T)

/-- The children of a path were asked for: what is left is what is done with them. -/
theorem fetched_of_children {order : List Bytes} {f : List Bytes → Phase} (hT : T.Proper)
    (hidc : T.idc ∈ conf ∧ T.idc ≠ [])
    (h : (match s.zkGetChdnodes T.idc T.path order with
      | none => none
      | some (.ok names, s) => some (s.setPhase T.key (f names))
      | some (.error .noNode, s) => some (s.setPhase T.key .gone)
      | some (.error _, s) => some (s.setPhase T.key .failed)) = some s')
    (hfresh : T.path ∈ (s.trees T.idc).nodes →
      ∃ ρ : Progress, ρ.phase = f (sortBytes ((s.trees T.idc).children T.path)) ∧
        Fresh T ({ s with childWatch := insert (T.idc, T.path) s.childWatch }.setPhase T.key
          (f (sortBytes ((s.trees T.idc).children T.path)))) ρ) :
    Fetched conf T s' := by
  cases ho : s.zkGetChdnodes T.idc T.path order with
  | none =>
    rw [ho] at h
    exact absurd h (by simp)
  | some o =>
    rw [ho] at h
    rcases zkGetChdnodes_cases ho with ⟨hm, rfl⟩ | ⟨e, he, rfl⟩
    · rw [cStr_of_nulFree hT.nulFree] at h hm
      obtain ⟨ρ, hρ, hf⟩ := hfresh hm
      cases h
      exact Or.inl ⟨ρ, by rw [hρ]; rfl, hf, hidc.1, hidc.2, (s.trees T.idc).valid _ hm⟩
    · rw [cStr_of_nulFree hT.nulFree] at he
      rcases ZkTree.getChildren_error he with ⟨rfl, -⟩ | ⟨rfl, hv⟩
      · cases h
        exact Or.inr (Or.inl rfl)
      · cases h
        refine Or.inr (Or.inr ⟨rfl, fun hr => ?_⟩)
        rw [hr.2.2] at hv
        exact absurd hv (by simp)

theorem Target.Proper.fetch {order : List Bytes} (hT : T.Proper)
    (h : s.fetch conf T.key order = some s') : Fetched conf T s' := by
  have hfail : ¬ Readable conf T → some (s.setPhase T.key .failed) = some s' → Fetched conf T s' := by
    intro hr hs
    cases hs
    exact Or.inr (Or.inr ⟨rfl, hr⟩)
  unfold State.fetch at h
  rw [hT.deserialize] at h
  change s.process conf T.key (some T.kind.dataType) T.idc T.path order = some s' at h
  unfold State.process at h
  split at h
  · next hidc =>
    refine hfail (fun hr => ?_) h
    rcases hidc with hidc | hidc
    · exact hidc hr.1
    · exact hr.2.1 hidc
  next hidc =>
  rw [not_or, not_not] at hidc
  obtain ⟨kind, idc, path⟩ := T
  have hempty : path = [] → ¬ Readable conf ⟨kind, idc, path⟩ := by
    rintro rfl hr
    exact absurd hr.2.2 (by simp [isValidPath])
  cases kind with
  | node =>
    split at h
    · rcases zkGetNode_cases s idc path with ⟨d, hl, hd⟩ | ⟨e, he, herr⟩
      · rw [hd, ZkTree.take_maxValueSize hl] at h
        rw [cStr_of_nulFree hT.nulFree] at hl h
        cases h
        refine Or.inl ⟨.value (nodevalToTblval (nodeKey idc path) d), rfl, ?_, hidc.1, hidc.2,
          (s.trees idc).valid _ (ZkTree.mem_of_lookup hl)⟩
        exact ⟨Option.map_eq_some_iff.mpr ⟨d, hl, rfl⟩, Finset.mem_insert_self _ _⟩
      · rw [herr] at h
        rw [cStr_of_nulFree hT.nulFree] at he
        rcases ZkTree.get_error he with ⟨rfl, -⟩ | ⟨rfl, hv⟩
        · cases h
          exact Or.inr (Or.inl rfl)
        · refine hfail (fun hr => ?_) h
          rw [hr.2.2] at hv
          exact absurd hv (by simp)
    · next hne => exact absurd rfl hne
  | service =>
    split at h
    · next he => exact absurd he (by simp [Kind.dataType, dataTypeNode, dataTypeService])
    split at h
    · next hp => exact hfail (hempty hp) h
    split at h
    · next he => exact absurd he (by simp [Kind.dataType, dataTypeService, dataTypeBatchNode])
    split at h
    · refine fetched_of_children hT hidc h (fun hm => ?_)
      exact ⟨.listed _ [], rfl, hm, rfl, Finset.mem_insert_self _ _, Nat.zero_le _,
        fun i c st _ hst => absurd hst (by simp)⟩
    · next hne => exact absurd rfl hne
  | batch =>
    split at h
    · next he => exact absurd he (by simp [Kind.dataType, dataTypeNode, dataTypeBatchNode])
    split at h
    · next hp => exact hfail (hempty hp) h
    split at h
    · refine fetched_of_children hT hidc h (fun hm => ?_)
      exact ⟨.value _, rfl, if_pos hm, Finset.mem_insert_self _ _⟩
    · next hne => exact absurd rfl hne

/-- **The first read of a key keeps the invariant.** -/
theorem Inv.fetch {key : Bytes} {order : List Bytes} (hi : Inv conf T s) (hT : T.Proper)
    (hw : s.work = some ⟨key, .pending⟩) (h : s.fetch conf key order = some s') : Inv conf T s' := by
  obtain ⟨ph, hp, hph, htbl⟩ := fetch_processed h
  have hown : key = T.key → Fetched conf T s' := fun hk => hT.fetch (hk ▸ h)
  have hwork : ∀ {ph'}, s'.work = some ⟨T.key, ph'⟩ → ph = ph' := by
    intro ph' hw'
    rw [hp.work, Option.some.injEq, Work.mk.injEq] at hw'
    exact hw'.2
  refine hi.processed hw (by simp) hp hph (fun hk hm => ?_) (fun hk ρ hρ => ?_) (fun hk hfw v hv => ?_)
  · rcases hm with hm | ⟨ρ, hρ⟩
    · rw [htbl] at hm
      exact hi.readable (Or.inl hm)
    · rcases hown hk with ⟨_, -, -, hr⟩ | hg | ⟨hf, -⟩
      · exact hr
      · cases ρ <;> exact absurd ((hwork hg).symm.trans hρ) (by simp [Progress.phase])
      · cases ρ <;> exact absurd ((hwork hf).symm.trans hρ) (by simp [Progress.phase])
  · rcases hown hk with ⟨ρ', hw', hf, -⟩ | hg | ⟨hf, -⟩
    · have : ρ' = ρ := by
        have he := (hwork hw').symm.trans hρ
        cases ρ <;> cases ρ' <;> simp_all [Progress.phase]
      exact Or.inl (this ▸ hf)
    · cases ρ <;> exact absurd ((hwork hg).symm.trans hρ) (by simp [Progress.phase])
    · cases ρ <;> exact absurd ((hwork hf).symm.trans hρ) (by simp [Progress.phase])
  · rw [htbl] at hv
    have hr := hi.readable (Or.inl (ZkTree.mem_of_lookup hv))
    rcases hown hk with ⟨ρ, hw', -, -⟩ | hg | ⟨-, hn⟩
    · rw [hwork hw'] at hfw
      cases ρ <;> simp [Progress.phase] at hfw
    · rw [hwork hg] at hfw
      simp at hfw
    · exact absurd hr hn

/-! ### The statuses of the children -/

/-- A status read goes on with the key and leaves the table alone. -/
theorem fetchStatus_processed (s : State) (key : Bytes) (names : List Bytes) (status : List Status) :
    ∃ ph, Processed s (s.fetchStatus key names status) key ph ∧ ph ≠ .popped ∧
      (s.fetchStatus key names status).tbl = s.tbl := by
  unfold State.fetchStatus
  dsimp only
  split
  · exact ⟨_, processed_self s key _, by simp, rfl⟩
  · next c _ _ =>
    rcases zkGetNode_cases s (deserializeFromTblkey key).idc
      ((deserializeFromTblkey key).path ++ slash :: c) with ⟨d, -, hd⟩ | ⟨e, -, he⟩
    · rw [hd]
      dsimp only
      split
      · exact ⟨_, processed_setPhase key _ (Finset.subset_insert _ _) (Finset.Subset.refl _), by simp, rfl⟩
      · exact ⟨_, processed_setPhase key _ (Finset.subset_insert _ _) (Finset.Subset.refl _), by simp, rfl⟩
    · rw [he]
      exact ⟨_, processed_self s key _, by simp, rfl⟩

/-- A child that is listed now is a node below the path. -/
theorem child_mem {t : ZkTree} {path c : Bytes} (hc : c ∈ t.children path) :
    childPath path c ∈ t.nodes := by
  obtain ⟨q, hq, hqr, hp, hn⟩ := ZkTree.mem_children.mp hc
  have := (ZkTree.eq_childPath (t.valid q hq) hqr).1
  rw [hp, hn] at this
  exact this ▸ hq

/-- One more status of a listing that is still right. -/
theorem Listed.snoc {idc path c : Bytes} {names : List Bytes} {status : List Status} {d : Bytes}
    {st : Status} (hl : Listed s idc path names status) (hc : names[status.length]? = some c)
    (hd : (s.trees idc).nodes.lookup (path ++ slash :: c) = some d) (hst : statusOfValue d = some st) :
    Listed { s with dataWatch := insert (idc, path ++ slash :: c) s.dataWatch } idc path names
      (status ++ [st]) where
  mem := hl.mem
  names_eq := hl.names_eq
  childWatch := hl.childWatch
  length_le := by
    rw [List.length_append, List.length_singleton]
    exact (List.getElem?_eq_some_iff.mp hc).1
  status_eq i c' st' hi hst' := by
    by_cases hlt : i < status.length
    · rw [List.getElem?_append_left hlt] at hst'
      obtain ⟨hnow, hw⟩ := hl.status_eq i c' st' hi hst'
      exact ⟨hnow, Finset.mem_insert_of_mem hw⟩
    · have hle : i < (status ++ [st]).length := (List.getElem?_eq_some_iff.mp hst').1
      rw [List.length_append, List.length_singleton] at hle
      obtain rfl : i = status.length := by omega
      rw [hc, Option.some.injEq] at hi
      subst hi
      rw [List.getElem?_append_right (Nat.le_refl _), Nat.sub_self, List.getElem?_cons_zero,
        Option.some.injEq] at hst'
      subst hst'
      exact ⟨Option.bind_eq_some_iff.mpr ⟨d, hd, hst⟩, Finset.mem_insert_self _ _⟩

/-- A read of the loop over a listing that is still right finds its child. -/
theorem Listed.fetchStatus {idc path : Bytes} {names : List Bytes} {status : List Status}
    (hT : Target.Proper ⟨.service, idc, path⟩) (hl : Listed s idc path names status)
    (hw : s.work = some ⟨serviceKey idc path, .listed names status⟩)
    (hk : Kept ⟨.service, idc, path⟩ s .fetchStatus) :
    ∃ ρ : Progress,
      (s.fetchStatus (serviceKey idc path) names status).work = some ⟨serviceKey idc path, ρ.phase⟩ ∧
      Fresh ⟨.service, idc, path⟩ (s.fetchStatus (serviceKey idc path) names status) ρ := by
  have hdes : deserializeFromTblkey (serviceKey idc path) =
      { ret := .ok, dataType := some dataTypeService, idc := idc, path := path } := hT.deserialize
  unfold State.fetchStatus
  rw [hdes]
  dsimp only
  split
  · next hdrop =>
    have hlen : status.length = names.length :=
      Nat.le_antisymm hl.length_le (List.drop_eq_nil_iff.mp hdrop)
    exact ⟨.value _, rfl, names, status, hlen, rfl,
      hl.grows ⟨rfl, Finset.Subset.refl _, Finset.Subset.refl _⟩⟩
  · next c rest hdrop =>
    have hc : names[status.length]? = some c := by
      have := congrArg List.head? hdrop
      rwa [List.head?_drop] at this
    -- the child is there, so the read is not answered with `ZNONODE`
    obtain ⟨d, st, hget, hst⟩ : ∃ d st, (s.trees idc).get (path ++ slash :: c) = .ok d ∧
        statusOfValue d = some st := by
      rcases hk.status rfl names status c rfl hw hc with hok | hno
      · exact hok
      · rcases ZkTree.get_error hno with ⟨-, hgone⟩ | ⟨hbad, -⟩
        · have hmem := List.mem_of_getElem? hc
          rw [hl.names_eq, sortBytes, mem_sortedList] at hmem
          have hchild := child_mem hmem
          unfold childPath at hchild
          split at hchild
          · next hroot =>
            exfalso
            rw [show path = rootPath from hroot] at hno
            exact absurd hno (by simp [ZkTree.get, rootPath_slash_not_valid])
          · exact absurd hchild hgone
        · exact absurd hbad (by simp)
    have hlook := ZkTree.get_eq_ok.mp hget
    have hnul : NulFree (path ++ slash :: c) :=
      isValidPath_nulFree ((s.trees idc).valid _ (ZkTree.mem_of_lookup hlook))
    have hread : s.zkGetNode idc (path ++ slash :: c) =
        (.ok d, { s with dataWatch := insert (idc, path ++ slash :: c) s.dataWatch }) := by
      unfold State.zkGetNode
      rw [cStr_of_nulFree hnul, hget]
      dsimp only
      rw [ZkTree.take_maxValueSize hlook]
    rw [hread]
    dsimp only
    rw [hst]
    exact ⟨.listed names (status ++ [st]), rfl,
      (hl.snoc hc hlook hst).grows ⟨rfl, Finset.Subset.refl _, Finset.Subset.refl _⟩⟩

theorem Progress.phase_inj {ρ ρ' : Progress} (h : ρ.phase = ρ'.phase) : ρ = ρ' := by
  cases ρ <;> cases ρ' <;> simp_all [Progress.phase]

theorem Progress.phase_ne (ρ : Progress) {ph : Phase}
    (h : ph = .popped ∨ ph = .pending ∨ ph = .gone ∨ ph = .failed ∨ ph = .written) : ph ≠ ρ.phase := by
  rcases h with rfl | rfl | rfl | rfl | rfl <;> cases ρ <;> simp [Progress.phase]

/-- **A status read keeps the invariant.** -/
theorem Inv.fetchStatus {key : Bytes} {names : List Bytes} {status : List Status}
    (hi : Inv conf T s) (hT : T.Proper) (hw : s.work = some ⟨key, .listed names status⟩)
    (hk : Kept T s .fetchStatus) : Inv conf T (s.fetchStatus key names status) := by
  obtain ⟨ph, hp, hph, htbl⟩ := fetchStatus_processed s key names status
  have hwork : ∀ {ph'}, (s.fetchStatus key names status).work = some ⟨key, ph'⟩ → ph = ph' := by
    intro ph' hw'
    rw [hp.work, Option.some.injEq, Work.mk.injEq] at hw'
    exact hw'.2
  -- what was read is still right, or the key will be read again
  have hown : key = T.key →
      (∃ ρ : Progress, ph = ρ.phase ∧ Fresh T (s.fetchStatus key names status) ρ) ∨
        ∀ ρ, Covered T (s.fetchStatus key names status) ρ := by
    rintro rfl
    rcases hi.progress (.listed names status) hw with hf | hagain
    · obtain ⟨kind, idc, path⟩ := T
      cases kind with
      | node => exact absurd hf (by simp [Fresh])
      | batch => exact absurd hf (by simp [Fresh])
      | service =>
        obtain ⟨ρ, hρ, hfresh⟩ := Listed.fetchStatus hT hf hw hk
        exact Or.inl ⟨ρ, hwork hρ, hfresh⟩
    · exact Or.inr (fun ρ => Covered.processed (Or.inr hagain) hp)
  refine hi.processed hw (by simp) hp hph (fun heq _ => ?_) (fun heq ρ hρ => ?_) (fun heq hfw v _ => ?_)
  · exact hi.readable (Or.inr ⟨.listed names status, heq ▸ hw⟩)
  · rcases hown heq with ⟨ρ', hρ', hf⟩ | hall
    · exact Or.inl (Progress.phase_inj (hρ'.symm.trans hρ) ▸ hf)
    · exact hall ρ
  · rcases hown heq with ⟨ρ, hρ, -⟩ | hall
    · exact absurd hρ (ρ.phase_ne (by tauto))
    · exact hall _

/-! ### Every step -/

theorem inv_init (conf : List Bytes) (T : Target) (trees : Bytes → ZkTree) :
    Inv conf T (State.init trees) where
  nodup := List.nodup_nil
  exist := rfl
  pending k := by simp [State.init]
  checks _ _ h := absurd h (by simp [State.init])
  readable h := by
    rcases h with h | ⟨_, h⟩
    · exact absurd h (Finmap.notMem_empty)
    · exact absurd h (by simp [State.init])
  table v hv := absurd hv (by simp [State.init])
  progress _ h := absurd h (by simp [State.init])
  settled _ h := absurd h (by simp [State.init])

/-- **Every step keeps the invariant.** -/
theorem Inv.step {a : Action} (hi : Inv conf T s) (hT : T.Proper) (hk : Kept T s a)
    (h : step conf s a = some s') : Inv conf T s' := by
  cases a with
  | zkCreate idc path data =>
    unfold Agent.step at h
    dsimp only at h
    split at h
    · next t ht =>
      cases h
      exact hi.reported (reported_create ht)
    · exact absurd h (by simp)
  | zkSet idc path data =>
    unfold Agent.step at h
    dsimp only at h
    split at h
    · next t ht =>
      cases h
      exact hi.reported (reported_set ht)
    · exact absurd h (by simp)
  | zkDelete idc path =>
    unfold Agent.step at h
    dsimp only at h
    split at h
    · next t ht =>
      cases h
      exact hi.reported (reported_delete ht)
    · exact absurd h (by simp)
  | deliver idc =>
    unfold Agent.step at h
    dsimp only at h
    split at h
    · next hh he =>
      cases h
      exact hi.deliver hh he
    · exact absurd h (by simp)
  | handle idc =>
    obtain ⟨hd, hh, rfl⟩ := Option.map_eq_some_iff.mp h
    exact hi.handle hh hk
  | message dataType idc path =>
    unfold Agent.step at h
    dsimp only at h
    split at h
    · cases h
      exact hi.queued (queued_addWatcherNode _ _)
    · exact absurd h (by simp)
  | evict key =>
    cases h
    exact hi.evict key
  | pop =>
    unfold Agent.step at h
    dsimp only at h
    split at h
    · next hw hn =>
      cases h
      exact hi.pop hw hn
    · exact absurd h (by simp)
  | addPending =>
    unfold Agent.step at h
    dsimp only at h
    split at h
    · next hw =>
      cases h
      exact hi.addPending hw
    · exact absurd h (by simp)
  | fetch order =>
    unfold Agent.step at h
    dsimp only at h
    split at h
    · next hw => exact hi.fetch hT hw h
    · exact absurd h (by simp)
  | fetchStatus =>
    unfold Agent.step at h
    dsimp only at h
    split at h
    · next hw =>
      cases h
      exact hi.fetchStatus hT hw hk
    · exact absurd h (by simp)
  | write fits =>
    unfold Agent.step at h
    dsimp only at h
    split at h
    · next hw => exact hi.write hw h
    · exact absurd h (by simp)
  | delPending =>
    unfold Agent.step at h
    dsimp only at h
    split at h
    · next hw =>
      cases h
      exact hi.delPending hw
    · exact absurd h (by simp)

/-- **The invariant holds in every state of every run** whose steps lose no
change of the key. -/
theorem inv_of_reaches {trees : Bytes → ZkTree} (hT : T.Proper)
    (h : Transition.Reaches (step conf) (Kept T) (State.init trees) s) : Inv conf T s :=
  h.invariant (Inv conf T) (inv_init conf T trees) (fun hi hk hs => hi.step hT hk hs)

end

end QConf.Agent
