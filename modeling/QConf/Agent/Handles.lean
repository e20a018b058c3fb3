import QConf.Base.Format
import QConf.Lib.Transition

/-!
# The ZooKeeper handles of the agent

The agent keeps its open handles in two maps, from the idc and host to the handle and back.
A thread that needs a handle looks it up and opens one if there is none; the callbacks of a
handle replace it when its session has expired, and enter it once more when it is connected.
Each access to a map has the lock of the map, but nothing holds a lock from the lookup to the
entry.

So two threads can both find no handle and both open one.  The second entry hides the first
handle, which stays open and is found by no lookup.  Calls that open a handle for the same idc
and host must not overlap; where they do not, the maps are inverse to each other and have
every open handle whenever no call is in progress, and wherever they do, the run can go on to a state where that
fails (`one_handle_exact`).
-/

namespace QConf.Handles

open Transition

/-! ### The state -/

/-- A pointer that `zookeeper_init` returns. -/
abbrev Handle := Nat

/-- The threads of the agent, and those that ZooKeeper runs the callbacks in. -/
inductive Thread
  | main
  | assist
  | trigger
  | gray
  | completion (n : Nat)
  deriving DecidableEq, Repr

structure Maps where
  /-- `_ht_idchost_handle` -/
  handleOf : Finmap (fun _ : Bytes => Handle)
  /-- `_ht_handle_idchost` -/
  idchostOf : Finmap (fun _ : Handle => Bytes)
  /-- the handles that are open, each with the idc and host it was opened for -/
  opened : Finmap (fun _ : Handle => Bytes)

/-- What a thread does next. -/
inductive Call
  /-- `get_zhandle_by_idc` has found no handle, and opens one -/
  | init (x : Bytes)
  /-- `watcher_reconnect_to_zookeeper` takes the handle out of the first map -/
  | deleteHandle (h : Handle) (x : Bytes)
  /-- and the idc and host out of the second -/
  | deleteHost (h : Handle) (x : Bytes)
  | close (h : Handle) (x : Bytes)
  | reinit (x : Bytes)
  /-- `init_env_for_zk` of a new handle -/
  | enterHandle (x : Bytes) (h : Handle)
  | enterHost (x : Bytes) (h : Handle)
  /-- `init_env_for_zk` of a handle that is connected -/
  | againHandle (h : Handle) (x : Bytes)
  | againHost (h : Handle) (x : Bytes)
  deriving DecidableEq, Repr

structure State where
  maps : Maps
  /-- the calls in progress -/
  calls : Finmap (fun _ : Thread => Call)

def State.init : State := ⟨⟨∅, ∅, ∅⟩, ∅⟩

namespace Call

/-- The idc and host of the call. -/
def host : Call → Bytes
  | .init x => x
  | .deleteHandle _ x => x
  | .deleteHost _ x => x
  | .close _ x => x
  | .reinit x => x
  | .enterHandle x _ => x
  | .enterHost x _ => x
  | .againHandle _ x => x
  | .againHost _ x => x

/-- The call opens a handle. -/
def opens : Call → Bool
  | .againHandle _ _ => false
  | .againHost _ _ => false
  | _ => true

/-- The handle whose callback the call is, while the handle is open. -/
def callback : Call → Option Handle
  | .deleteHandle h _ => some h
  | .deleteHost h _ => some h
  | .close h _ => some h
  | .againHandle h _ => some h
  | .againHost h _ => some h
  | _ => none

/-- The next step of a call, and what is left of it.  `zk` is what `zookeeper_init` returns: nothing,
or a handle that is not open. -/
def next (m : Maps) (zk : Option Handle) : Call → Option (Maps × Option Call)
  | .init x =>
    match zk with
    | none => some (m, none)
    | some h => if h ∈ m.opened then none
      else some ({ m with opened := m.opened.insert h x }, some (.enterHandle x h))
  | .deleteHandle h x => some ({ m with idchostOf := m.idchostOf.erase h }, some (.deleteHost h x))
  | .deleteHost h x => some ({ m with handleOf := m.handleOf.erase x }, some (.close h x))
  | .close h x => some ({ m with opened := m.opened.erase h }, some (.reinit x))
  | .reinit x =>
    match zk with
    | none => some (m, none)
    | some h => if h ∈ m.opened then none
      else some ({ m with opened := m.opened.insert h x }, some (.enterHandle x h))
  | .enterHandle x h => some ({ m with idchostOf := m.idchostOf.insert h x }, some (.enterHost x h))
  | .enterHost x h => some ({ m with handleOf := m.handleOf.insert x h }, none)
  | .againHandle h x => some ({ m with idchostOf := m.idchostOf.insert h x }, some (.againHost h x))
  | .againHost h x => some ({ m with handleOf := m.handleOf.insert x h }, none)

end Call

/-- The key of an idc in the configuration. -/
def idcHostOf (conf : Bytes → Option Bytes) (idc : Bytes) : Option Bytes :=
  if idc = [] then none else (conf idc).map (serializeToIdcHost idc)

/-- No callback of the handle is running: ZooKeeper runs them one after the other. -/
def State.CallbackFree (s : State) (h : Handle) : Prop :=
  ∀ t ∈ s.calls.keys, (s.calls.lookup t).bind Call.callback ≠ some h

instance (s : State) (h : Handle) : Decidable (s.CallbackFree h) := inferInstanceAs (Decidable (∀ _ ∈ _, _))

inductive Action
  /-- a thread calls `get_zhandle_by_idc` and looks for the handle -/
  | get (t : Thread) (idc : Bytes)
  /-- the session of a handle has expired, and `watcher_reconnect_to_zookeeper` looks for the idc and host -/
  | expired (n : Nat) (h : Handle)
  /-- a handle is connected, and `global_watcher` looks for the idc and host -/
  | connected (n : Nat) (h : Handle)
  /-- a thread takes the next step of its call -/
  | advance (t : Thread) (zk : Option Handle)

/-- A thread goes on with its call. -/
def State.advance (s : State) (t : Thread) (zk : Option Handle) : Option State :=
  match s.calls.lookup t with
  | none => none
  | some c =>
    match c.next s.maps zk with
    | none => none
    | some (m, none) => some ⟨m, s.calls.erase t⟩
    | some (m, some c) => some ⟨m, s.calls.insert t c⟩

/-- The threads that call `get_zhandle_by_idc`. -/
def Thread.isWorker : Thread → Bool
  | .completion _ => false
  | _ => true

/-- One step; `none` where it is not possible. -/
def step (conf : Bytes → Option Bytes) (s : State) : Action → Option State
  | .get t idc =>
    if t.isWorker = true ∧ t ∉ s.calls then
      match idcHostOf conf idc with
      | none => some s
      | some x =>
        if x ∈ s.maps.handleOf then some s else some { s with calls := s.calls.insert t (.init x) }
    else none
  | .expired n h =>
    if .completion n ∉ s.calls ∧ h ∈ s.maps.opened ∧ s.CallbackFree h then
      match s.maps.idchostOf.lookup h with
      | none => some s
      | some x => some { s with calls := s.calls.insert (.completion n) (.deleteHandle h x) }
    else none
  | .connected n h =>
    if .completion n ∉ s.calls ∧ h ∈ s.maps.opened ∧ s.CallbackFree h then
      match s.maps.idchostOf.lookup h with
      | none => some s
      | some x => some { s with calls := s.calls.insert (.completion n) (.againHandle h x) }
    else none
  | .advance t zk => s.advance t zk

/-! ### What is asked for -/

/-- The maps are inverse to each other, and have every open handle. -/
structure Maps.Exact (m : Maps) : Prop where
  inverse : ∀ x h, m.handleOf.lookup x = some h ↔ m.idchostOf.lookup h = some x
  registered : ∀ h x, m.opened.lookup h = some x → m.handleOf.lookup x = some h

/-- No call is in progress. -/
def State.Quiet (s : State) : Prop := s.calls = ∅

/-- A call in progress opens a handle for `x`. -/
def State.Opening (s : State) (x : Bytes) : Prop := ∃ t c, s.calls.lookup t = some c ∧ c.opens = true ∧ c.host = x

/-- A call starts to open a handle only while no other does so for the same idc and host. -/
def Alone (conf : Bytes → Option Bytes) (s : State) : Action → Prop
  | .get _ idc => ∀ x, idcHostOf conf idc = some x → x ∉ s.maps.handleOf → ¬ s.Opening x
  | .expired _ h => ∀ x, s.maps.idchostOf.lookup h = some x → ¬ s.Opening x
  | _ => True

/-! ### One idc and host -/

/-- The open handle, the entry of the handle and the entry of the idc and host, for one of them. -/
structure At (m : Maps) (x : Bytes) (o i k : Option Handle) : Prop where
  opened : ∀ h, m.opened.lookup h = some x ↔ o = some h
  idchost : ∀ h, m.idchostOf.lookup h = some x ↔ i = some h
  handle : m.handleOf.lookup x = k

section

variable {m m' : Maps} {x y : Bytes} {o i k : Option Handle} {h : Handle} {c d : Call} {d' : Option Call}

/-- `zookeeper_init`. -/
theorem At.open (ha : At m x none i k) (hh : h ∉ m.opened) : At { m with opened := m.opened.insert h x } x (some h) i k := by
  refine ⟨fun h' => ?_, ha.idchost, ha.handle⟩
  rw [lookup_insert_iff, ha.opened h', Option.some.injEq]
  constructor
  · rintro (⟨rfl, -⟩ | ⟨-, h0⟩)
    · rfl
    · cases h0
  · rintro rfl
    exact .inl ⟨rfl, rfl⟩

theorem At.open_other (ha : At m y o i k) (hh : h ∉ m.opened) (hy : y ≠ x) :
    At { m with opened := m.opened.insert h x } y o i k := by
  refine ⟨fun h' => ?_, ha.idchost, ha.handle⟩
  rw [lookup_insert_iff, ← ha.opened h']
  constructor
  · rintro (⟨-, h0⟩ | ⟨-, h0⟩)
    · exact absurd h0.symm hy
    · exact h0
  · intro h0
    refine .inr ⟨?_, h0⟩
    rintro rfl
    exact hh (Finmap.mem_iff.mpr ⟨y, h0⟩)

/-- `zookeeper_close`. -/
theorem At.close (ha : At m x (some h) i k) : At { m with opened := m.opened.erase h } x none i k := by
  refine ⟨fun h' => ?_, ha.idchost, ha.handle⟩
  rw [lookup_erase_iff, ha.opened h', Option.some.injEq]
  exact iff_of_false (fun h0 => h0.1 h0.2.symm) nofun

theorem At.close_other (ha : At m y o i k) (hx : m.opened.lookup h = some x) (hy : y ≠ x) :
    At { m with opened := m.opened.erase h } y o i k := by
  refine ⟨fun h' => ?_, ha.idchost, ha.handle⟩
  rw [lookup_erase_iff, ← ha.opened h', and_iff_right_of_imp]
  rintro h0 rfl
  exact hy (Option.some.inj (h0.symm.trans hx))

/-- The entry of a handle. -/
theorem At.enterHandle (ha : At m x o i k) (hi : i = none ∨ i = some h) :
    At { m with idchostOf := m.idchostOf.insert h x } x o (some h) k := by
  refine ⟨ha.opened, fun h' => ?_, ha.handle⟩
  rw [lookup_insert_iff, ha.idchost h', Option.some.injEq]
  constructor
  · rintro (⟨rfl, -⟩ | ⟨-, h0⟩)
    · rfl
    · rcases hi with rfl | rfl
      · cases h0
      · exact Option.some.inj h0
  · rintro rfl
    exact .inl ⟨rfl, rfl⟩

theorem At.enterHandle_other (ha : At m y o i k) (hx : m.idchostOf.lookup h ≠ some y) (hy : y ≠ x) :
    At { m with idchostOf := m.idchostOf.insert h x } y o i k := by
  refine ⟨ha.opened, fun h' => ?_, ha.handle⟩
  rw [lookup_insert_iff, ← ha.idchost h']
  constructor
  · rintro (⟨-, h0⟩ | ⟨-, h0⟩)
    · exact absurd h0.symm hy
    · exact h0
  · intro h0
    refine .inr ⟨?_, h0⟩
    rintro rfl
    exact hx h0

theorem At.deleteHandle (ha : At m x o (some h) k) : At { m with idchostOf := m.idchostOf.erase h } x o none k := by
  refine ⟨ha.opened, fun h' => ?_, ha.handle⟩
  rw [lookup_erase_iff, ha.idchost h', Option.some.injEq]
  exact iff_of_false (fun h0 => h0.1 h0.2.symm) nofun

theorem At.deleteHandle_other (ha : At m y o i k) (hx : m.idchostOf.lookup h = some x) (hy : y ≠ x) :
    At { m with idchostOf := m.idchostOf.erase h } y o i k := by
  refine ⟨ha.opened, fun h' => ?_, ha.handle⟩
  rw [lookup_erase_iff, ← ha.idchost h', and_iff_right_of_imp]
  rintro h0 rfl
  exact hy (Option.some.inj (h0.symm.trans hx))

/-- The entry of an idc and host. -/
theorem At.enterHost (ha : At m x o i k) (h : Handle) :
    At { m with handleOf := m.handleOf.insert x h } x o i (some h) :=
  ⟨ha.opened, ha.idchost, Finmap.lookup_insert _⟩

theorem At.enterHost_other (ha : At m y o i k) (h : Handle) (hy : y ≠ x) :
    At { m with handleOf := m.handleOf.insert x h } y o i k :=
  ⟨ha.opened, ha.idchost, (Finmap.lookup_insert_of_ne _ hy).trans ha.handle⟩

theorem At.deleteHost (ha : At m x o i k) : At { m with handleOf := m.handleOf.erase x } x o i none :=
  ⟨ha.opened, ha.idchost, Finmap.lookup_erase x _⟩

theorem At.deleteHost_other (ha : At m y o i k) (hy : y ≠ x) : At { m with handleOf := m.handleOf.erase x } y o i k :=
  ⟨ha.opened, ha.idchost, (Finmap.lookup_erase_ne hy).trans ha.handle⟩

/-! ### The stages of a call -/

/-- What the maps have for the idc and host of a call. -/
def Stage (m : Maps) : Call → Prop
  | .init x => At m x none none none
  | .deleteHandle h x => At m x (some h) (some h) (some h)
  | .deleteHost h x => At m x (some h) none (some h)
  | .close h x => At m x (some h) none none
  | .reinit x => At m x none none none
  | .enterHandle x h => At m x (some h) none none
  -- a connected handle may have been entered already
  | .enterHost x h => ∃ k, At m x (some h) (some h) k ∧ (k = none ∨ k = some h)
  | .againHandle h x => m.opened.lookup h = some x ∧ m.idchostOf.lookup h = some x
  | .againHost h x => m.opened.lookup h = some x ∧ m.idchostOf.lookup h = some x

/-- Only open handles are entered. -/
def Maps.OnlyOpen (m : Maps) : Prop := ∀ h x, m.idchostOf.lookup h = some x → m.opened.lookup h = some x

/-- What a step of the call `c` does, with `c'` left of it. -/
structure Moves (m m' : Maps) (c : Call) (c' : Option Call) : Prop where
  /-- other idcs and hosts are not touched -/
  frame : ∀ y o i k, y ≠ c.host → At m y o i k → At m' y o i k
  /-- the call is at its next stage -/
  next : ∀ c₁, c' = some c₁ → c₁.host = c.host ∧ c₁.opens = c.opens ∧
    (∀ h, c₁.callback = some h → c.callback = some h) ∧ Stage m' c₁
  /-- or it leaves the maps in order -/
  done : c' = none → c.opens = true → ∃ o, At m' c.host o o o
  again : c.opens = false → ∀ o, At m c.host o o o → At m' c.host o o o
  /-- the other calls for the same idc and host stay at their stages -/
  others : ∀ d : Call, d.host = c.host → ¬ (c.opens = true ∧ d.opens = true) →
    (∀ h, c.callback = some h → d.callback ≠ some h) → Stage m d → Stage m' d

/-- A call that enters a connected handle once more. -/
theorem opens_false (hc : c.opens = false) : ∃ h x, c = .againHandle h x ∨ c = .againHost h x := by
  cases c with
  | againHandle h x => exact ⟨h, x, .inl rfl⟩
  | againHost h x => exact ⟨h, x, .inr rfl⟩
  | _ => cases hc

/-- While a call opens a handle, a handle that is entered once more is the one that the call has
entered. -/
theorem again_of_opens (hc : c.opens = true) (hd : d.host = c.host) (hno : ¬ (c.opens = true ∧ d.opens = true))
    (hs : Stage m d) (ha : At m c.host o i k) :
    ∃ h, i = some h ∧ d.callback = some h ∧ (d = .againHandle h c.host ∨ d = .againHost h c.host) := by
  have hagain : d.opens = false := by
    cases hdo : d.opens with
    | false => rfl
    | true => exact absurd ⟨hc, hdo⟩ hno
  obtain ⟨h, x, hd' | hd'⟩ := opens_false hagain
  · subst hd'
    obtain rfl : x = c.host := hd
    exact ⟨h, (ha.idchost h).mp hs.2, rfl, .inl rfl⟩
  · subst hd'
    obtain rfl : x = c.host := hd
    exact ⟨h, (ha.idchost h).mp hs.2, rfl, .inr rfl⟩

/-- No handle is entered once more while none is entered. -/
theorem no_again {P : Prop} (hc : c.opens = true) (hd : d.host = c.host) (hno : ¬ (c.opens = true ∧ d.opens = true))
    (hs : Stage m d) (ha : At m c.host o none k) : P := by
  obtain ⟨h, h0, -⟩ := again_of_opens hc hd hno hs ha
  cases h0

theorem moves_open (hc : c = .init x ∨ c = .reinit x) (ha : At m x none none none) (hh : h ∉ m.opened) :
    Moves m { m with opened := m.opened.insert h x } c (some (.enterHandle x h)) := by
  have hhost : c.host = x := by rcases hc with rfl | rfl <;> rfl
  have hopens : c.opens = true := by rcases hc with rfl | rfl <;> rfl
  refine ⟨fun y o i k hy hat => hat.open_other hh (hhost ▸ hy), fun c₁ h₁ => ?_, nofun, fun h0 => ?_,
    fun d hd hno _ hs => no_again hopens hd hno hs (hhost.symm ▸ ha)⟩
  · obtain rfl := Option.some.inj h₁
    exact ⟨hhost.symm, hopens.symm, nofun, ha.open hh⟩
  · rw [hopens] at h0
    cases h0

theorem moves_give_up (hc : c = .init x ∨ c = .reinit x) (ha : At m x none none none) : Moves m m c none := by
  have hhost : c.host = x := by rcases hc with rfl | rfl <;> rfl
  exact ⟨fun _ _ _ _ _ hat => hat, nofun, fun _ _ => ⟨none, hhost ▸ ha⟩, fun _ _ hat => hat, fun _ _ _ _ hs => hs⟩

theorem moves_deleteHandle (ha : Stage m (.deleteHandle h x)) :
    Moves m { m with idchostOf := m.idchostOf.erase h } (.deleteHandle h x) (some (.deleteHost h x)) := by
  refine ⟨fun y o i k hy hat => hat.deleteHandle_other ((At.idchost ha h).mpr rfl) hy, fun c₁ h₁ => ?_, nofun, nofun,
    fun d hd hno hcall hs => ?_⟩
  · obtain rfl := Option.some.inj h₁
    exact ⟨rfl, rfl, fun _ h0 => h0, At.deleteHandle ha⟩
  · -- the callbacks of a handle do not overlap
    obtain ⟨h', h0, hd', -⟩ := again_of_opens (c := .deleteHandle h x) rfl hd hno hs ha
    exact absurd hd' (hcall h' h0)

theorem moves_deleteHost (ha : Stage m (.deleteHost h x)) :
    Moves m { m with handleOf := m.handleOf.erase x } (.deleteHost h x) (some (.close h x)) := by
  refine ⟨fun y o i k hy hat => hat.deleteHost_other hy, fun c₁ h₁ => ?_, nofun, nofun,
    fun d hd hno _ hs => no_again (c := .deleteHost h x) rfl hd hno hs ha⟩
  obtain rfl := Option.some.inj h₁
  exact ⟨rfl, rfl, fun _ h0 => h0, At.deleteHost ha⟩

theorem moves_close (ha : Stage m (.close h x)) :
    Moves m { m with opened := m.opened.erase h } (.close h x) (some (.reinit x)) := by
  refine ⟨fun y o i k hy hat => hat.close_other ((At.opened ha h).mpr rfl) hy, fun c₁ h₁ => ?_, nofun, nofun,
    fun d hd hno _ hs => no_again (c := .close h x) rfl hd hno hs ha⟩
  obtain rfl := Option.some.inj h₁
  exact ⟨rfl, rfl, nofun, At.close ha⟩

theorem moves_enterHandle (ha : Stage m (.enterHandle x h)) (hreg : m.OnlyOpen) :
    Moves m { m with idchostOf := m.idchostOf.insert h x } (.enterHandle x h) (some (.enterHost x h)) := by
  refine ⟨fun y o i k hy hat => hat.enterHandle_other (fun h0 => hy ?_) hy, fun c₁ h₁ => ?_, nofun, nofun,
    fun d hd hno _ hs => no_again (c := .enterHandle x h) rfl hd hno hs ha⟩
  · exact Option.some.inj ((hreg h y h0).symm.trans ((At.opened ha h).mpr rfl))
  · obtain rfl := Option.some.inj h₁
    exact ⟨rfl, rfl, nofun, none, At.enterHandle ha (.inl rfl), .inl rfl⟩

theorem moves_enterHost (ha : Stage m (.enterHost x h)) :
    Moves m { m with handleOf := m.handleOf.insert x h } (.enterHost x h) none := by
  obtain ⟨k, ha, -⟩ := ha
  refine ⟨fun y o i k hy hat => hat.enterHost_other h hy, nofun, fun _ _ => ⟨some h, ha.enterHost h⟩, nofun,
    fun d hd hno _ hs => ?_⟩
  obtain ⟨h', -, -, rfl | rfl⟩ := again_of_opens (c := .enterHost x h) rfl hd hno hs ha
  · exact hs
  · exact hs

/-- The handle has its entry already. -/
theorem moves_againHandle (ha : Stage m (.againHandle h x)) :
    Moves m { m with idchostOf := m.idchostOf.insert h x } (.againHandle h x) (some (.againHost h x)) := by
  have hsame : m.idchostOf.insert h x = m.idchostOf := by
    refine Finmap.ext_lookup fun h' => ?_
    by_cases hh : h' = h
    · rw [hh, Finmap.lookup_insert, ha.2]
    · rw [Finmap.lookup_insert_of_ne _ hh]
  rw [hsame]
  refine ⟨fun _ _ _ _ _ hat => hat, fun c₁ h₁ => ?_, nofun, fun _ _ hat => hat, fun _ _ _ _ hs => hs⟩
  obtain rfl := Option.some.inj h₁
  exact ⟨rfl, rfl, fun _ h0 => h0, ha⟩

theorem moves_againHost (ha : Stage m (.againHost h x)) :
    Moves m { m with handleOf := m.handleOf.insert x h } (.againHost h x) none := by
  refine ⟨fun y o i k hy hat => hat.enterHost_other h hy, nofun, nofun, fun _ o hat => ?_,
    fun d hd _ hcall hs => ?_⟩
  · obtain rfl := (hat.idchost h).mp ha.2
    exact hat.enterHost h
  · cases d with
    | enterHost x' h' =>
      obtain rfl : x' = x := hd
      obtain ⟨k, hat, -⟩ := hs
      obtain rfl : h' = h := Option.some.inj ((hat.idchost h).mp ha.2)
      exact ⟨some h', hat.enterHost h', .inr rfl⟩
    | againHandle h' x' => exact hs
    | againHost h' x' => exact hs
    | deleteHandle h' x' =>
      obtain rfl : x' = x := hd
      obtain rfl : h' = h := Option.some.inj ((At.idchost hs h).mp ha.2)
      exact absurd rfl (hcall h' rfl)
    | init x' =>
      obtain rfl : x' = x := hd
      exact nomatch (At.idchost hs h).mp ha.2
    | reinit x' =>
      obtain rfl : x' = x := hd
      exact nomatch (At.idchost hs h).mp ha.2
    | deleteHost h' x' =>
      obtain rfl : x' = x := hd
      exact nomatch (At.idchost hs h).mp ha.2
    | close h' x' =>
      obtain rfl : x' = x := hd
      exact nomatch (At.idchost hs h).mp ha.2
    | enterHandle x' h' =>
      obtain rfl : x' = x := hd
      exact nomatch (At.idchost hs h).mp ha.2

theorem moves_init {zk : Option Handle} (hc : c = .init x ∨ c = .reinit x) (hs : At m x none none none)
    (hnext : c.next m zk = some (m', d')) : Moves m m' c d' := by
  cases zk with
  | none =>
    have hdef : c.next m none = some (m, none) := by rcases hc with rfl | rfl <;> rfl
    obtain ⟨rfl, rfl⟩ := Prod.mk.inj (Option.some.inj (hdef.symm.trans hnext))
    exact moves_give_up hc hs
  | some h =>
    have hdef : c.next m (some h) = if h ∈ m.opened then none
        else some ({ m with opened := m.opened.insert h x }, some (.enterHandle x h)) := by
      rcases hc with rfl | rfl <;> rfl
    rw [hdef] at hnext
    split at hnext
    · cases hnext
    · next hh =>
      obtain ⟨rfl, rfl⟩ := Prod.mk.inj (Option.some.inj hnext)
      exact moves_open hc hs hh

/-- **What one step of a call does.** -/
theorem moves_of_next {zk : Option Handle} (hs : Stage m c) (hreg : m.OnlyOpen)
    (hnext : c.next m zk = some (m', d')) : Moves m m' c d' := by
  cases c with
  | init x => exact moves_init (.inl rfl) hs hnext
  | reinit x => exact moves_init (.inr rfl) hs hnext
  | deleteHandle h x =>
    obtain ⟨rfl, rfl⟩ := Prod.mk.inj (Option.some.inj hnext)
    exact moves_deleteHandle hs
  | deleteHost h x =>
    obtain ⟨rfl, rfl⟩ := Prod.mk.inj (Option.some.inj hnext)
    exact moves_deleteHost hs
  | close h x =>
    obtain ⟨rfl, rfl⟩ := Prod.mk.inj (Option.some.inj hnext)
    exact moves_close hs
  | enterHandle x h =>
    obtain ⟨rfl, rfl⟩ := Prod.mk.inj (Option.some.inj hnext)
    exact moves_enterHandle hs hreg
  | enterHost x h =>
    obtain ⟨rfl, rfl⟩ := Prod.mk.inj (Option.some.inj hnext)
    exact moves_enterHost hs
  | againHandle h x =>
    obtain ⟨rfl, rfl⟩ := Prod.mk.inj (Option.some.inj hnext)
    exact moves_againHandle hs
  | againHost h x =>
    obtain ⟨rfl, rfl⟩ := Prod.mk.inj (Option.some.inj hnext)
    exact moves_againHost hs

/-- A call stays at its stage where nothing changes for its idc and host. -/
theorem Stage.frame (hs : Stage m d) (hat : At m d.host o i k)
    (hframe : ∀ o i k, At m d.host o i k → At m' d.host o i k) : Stage m' d := by
  have hat' := hframe o i k hat
  cases d with
  | init x => exact hframe _ _ _ hs
  | reinit x => exact hframe _ _ _ hs
  | deleteHandle h x => exact hframe _ _ _ hs
  | deleteHost h x => exact hframe _ _ _ hs
  | close h x => exact hframe _ _ _ hs
  | enterHandle x h => exact hframe _ _ _ hs
  | enterHost x h =>
    obtain ⟨k, ha, hk⟩ := hs
    exact ⟨k, hframe _ _ _ ha, hk⟩
  | againHandle h x =>
    exact ⟨(hat'.opened h).mpr ((hat.opened h).mp hs.1), (hat'.idchost h).mpr ((hat.idchost h).mp hs.2)⟩
  | againHost h x =>
    exact ⟨(hat'.opened h).mpr ((hat.opened h).mp hs.1), (hat'.idchost h).mpr ((hat.idchost h).mp hs.2)⟩

/-- A call that opens a handle knows what the maps have. -/
theorem Stage.at (hs : Stage m c) (hc : c.opens = true) : ∃ o i k, At m c.host o i k ∧ (i = none ∨ i = o) := by
  cases c with
  | init x => exact ⟨_, _, _, hs, .inl rfl⟩
  | reinit x => exact ⟨_, _, _, hs, .inl rfl⟩
  | deleteHandle h x => exact ⟨_, _, _, hs, .inr rfl⟩
  | deleteHost h x => exact ⟨_, _, _, hs, .inl rfl⟩
  | close h x => exact ⟨_, _, _, hs, .inl rfl⟩
  | enterHandle x h => exact ⟨_, _, _, hs, .inl rfl⟩
  | enterHost x h =>
    obtain ⟨k, ha, -⟩ := hs
    exact ⟨_, _, _, ha, .inr rfl⟩
  | againHandle h x => cases hc
  | againHost h x => cases hc

end

/-! ### The invariant -/

/-- **What holds while calls that open a handle do not overlap.** -/
structure Inv (s : State) : Prop where
  /-- one call opens a handle for an idc and host -/
  one : ∀ t t' c c', s.calls.lookup t = some c → s.calls.lookup t' = some c' → c.opens = true → c'.opens = true →
    c.host = c'.host → t = t'
  /-- one callback of a handle runs -/
  serial : ∀ t t' c c' h, s.calls.lookup t = some c → s.calls.lookup t' = some c' → c.callback = some h →
    c'.callback = some h → t = t'
  stage : ∀ t c, s.calls.lookup t = some c → Stage s.maps c
  /-- where no call opens a handle, the maps have the open one -/
  idle : ∀ x, ¬ s.Opening x → ∃ o, At s.maps x o o o

section

variable {s s' : State} {conf : Bytes → Option Bytes} {x : Bytes} {h : Handle} {t : Thread} {c : Call}

theorem Inv.at (hinv : Inv s) (x : Bytes) : ∃ o i k, At s.maps x o i k ∧ (i = none ∨ i = o) := by
  by_cases hx : s.Opening x
  · obtain ⟨t, c, hc, hopens, rfl⟩ := hx
    exact (hinv.stage t c hc).at hopens
  · obtain ⟨o, ho⟩ := hinv.idle x hx
    exact ⟨o, o, o, ho, .inr rfl⟩

theorem Inv.onlyOpen (hinv : Inv s) : s.maps.OnlyOpen := by
  intro h x hh
  obtain ⟨o, i, k, hat, hi⟩ := hinv.at x
  have hih := (hat.idchost h).mp hh
  refine (hat.opened h).mpr ?_
  rcases hi with rfl | rfl
  · cases hih
  · exact hih

theorem inv_init : Inv State.init := by
  have hcalls : ∀ t c, State.init.calls.lookup t ≠ some c := fun t c hc => by
    rw [show State.init.calls = ∅ from rfl, Finmap.lookup_empty] at hc
    cases hc
  refine ⟨fun t _ c _ hc => absurd hc (hcalls t c), fun t _ c _ _ hc => absurd hc (hcalls t c),
    fun t c hc => absurd hc (hcalls t c), fun x _ => ⟨none, ?_, ?_, ?_⟩⟩
  · exact fun h => iff_of_false nofun nofun
  · exact fun h => iff_of_false nofun nofun
  · rfl

/-- **In a quiet state the maps are exact.** -/
theorem Inv.exact (hinv : Inv s) (hq : s.Quiet) : s.maps.Exact := by
  have hidle : ∀ x, ∃ o, At s.maps x o o o := fun x => hinv.idle x (by
    rintro ⟨t, c, hc, -⟩
    rw [hq] at hc
    cases hc)
  constructor
  · intro x h
    obtain ⟨o, ho⟩ := hidle x
    rw [ho.handle, ho.idchost]
  · intro h x hx
    obtain ⟨o, ho⟩ := hidle x
    rw [ho.handle]
    exact (ho.opened h).mp hx

/-! ### The steps -/

theorem lookup_calls_insert {f : Finmap (fun _ : Thread => Call)} {t t' : Thread} {c c' : Call}
    (hl : (f.insert t c).lookup t' = some c') : (t' = t ∧ c' = c) ∨ (t' ≠ t ∧ f.lookup t' = some c') := by
  by_cases ht : t' = t
  · subst ht
    rw [Finmap.lookup_insert] at hl
    exact .inl ⟨rfl, (Option.some.inj hl).symm⟩
  · rw [Finmap.lookup_insert_of_ne _ ht] at hl
    exact .inr ⟨ht, hl⟩

/-- A call that starts. -/
theorem Inv.start (hinv : Inv s) (ht : t ∉ s.calls) (hs : Stage s.maps c)
    (halone : c.opens = true → ¬ s.Opening c.host)
    (hserial : ∀ h, c.callback = some h → s.CallbackFree h) : Inv { s with calls := s.calls.insert t c } := by
  have hold : ∀ t', t' ∈ s.calls → t' ≠ t := fun t' h' h0 => ht (h0 ▸ h')
  have hfree : ∀ t' c' h, s.calls.lookup t' = some c' → c.callback = some h → c'.callback ≠ some h :=
    fun t' c' h hc' hcb => by
      have hmem : t' ∈ s.calls := Finmap.mem_iff.mpr ⟨c', hc'⟩
      have := hserial h hcb t' (Finmap.mem_keys.mpr hmem)
      rwa [hc', Option.bind_some] at this
  refine ⟨?_, ?_, ?_, ?_⟩
  · intro t₁ t₂ c₁ c₂ h₁ h₂ ho₁ ho₂ hhost
    rcases lookup_calls_insert h₁ with ⟨ht₁, hc₁⟩ | ⟨-, hold₁⟩
    · rcases lookup_calls_insert h₂ with ⟨ht₂, -⟩ | ⟨-, hold₂⟩
      · rw [ht₁, ht₂]
      · subst hc₁
        exact absurd ⟨t₂, c₂, hold₂, ho₂, hhost.symm⟩ (halone ho₁)
    · rcases lookup_calls_insert h₂ with ⟨-, hc₂⟩ | ⟨-, hold₂⟩
      · subst hc₂
        exact absurd ⟨t₁, c₁, hold₁, ho₁, hhost⟩ (halone ho₂)
      · exact hinv.one t₁ t₂ c₁ c₂ hold₁ hold₂ ho₁ ho₂ hhost
  · intro t₁ t₂ c₁ c₂ h h₁ h₂ hcb₁ hcb₂
    rcases lookup_calls_insert h₁ with ⟨ht₁, hc₁⟩ | ⟨-, hold₁⟩
    · rcases lookup_calls_insert h₂ with ⟨ht₂, -⟩ | ⟨-, hold₂⟩
      · rw [ht₁, ht₂]
      · exact absurd hcb₂ (hfree t₂ c₂ h hold₂ (hc₁ ▸ hcb₁))
    · rcases lookup_calls_insert h₂ with ⟨-, hc₂⟩ | ⟨-, hold₂⟩
      · exact absurd hcb₁ (hfree t₁ c₁ h hold₁ (hc₂ ▸ hcb₂))
      · exact hinv.serial t₁ t₂ c₁ c₂ h hold₁ hold₂ hcb₁ hcb₂
  · intro t₁ c₁ h₁
    rcases lookup_calls_insert h₁ with ⟨-, rfl⟩ | ⟨-, h₁⟩
    · exact hs
    · exact hinv.stage t₁ c₁ h₁
  · intro y hy
    refine hinv.idle y fun ⟨t', c', hc', ho', hh'⟩ => hy ⟨t', c', ?_, ho', hh'⟩
    exact (Finmap.lookup_insert_of_ne _ (hold t' (Finmap.mem_iff.mpr ⟨c', hc'⟩))).trans hc'

/-- The calls after a step of `c` by the thread `t`: the others, and what is left of `c`. -/
theorem advance_cases {zk : Option Handle} (hstep : s.advance t zk = some s') : ∃ c d', s.calls.lookup t = some c ∧
    c.next s.maps zk = some (s'.maps, d') ∧ s'.calls.lookup t = d' ∧
    ∀ t', t' ≠ t → s'.calls.lookup t' = s.calls.lookup t' := by
  unfold State.advance at hstep
  cases hc : s.calls.lookup t with
  | none =>
    rw [hc] at hstep
    cases hstep
  | some c =>
    rw [hc] at hstep
    dsimp only at hstep
    cases hnext : c.next s.maps zk with
    | none =>
      rw [hnext] at hstep
      cases hstep
    | some r =>
      obtain ⟨m, d'⟩ := r
      rw [hnext] at hstep
      cases d' with
      | none =>
        obtain rfl := Option.some.inj hstep
        exact ⟨c, none, rfl, hnext, Finmap.lookup_erase t _, fun t' ht => Finmap.lookup_erase_ne ht⟩
      | some d =>
        obtain rfl := Option.some.inj hstep
        exact ⟨c, some d, rfl, hnext, Finmap.lookup_insert _, fun t' ht => Finmap.lookup_insert_of_ne _ ht⟩

/-- A call that goes on, or ends. -/
theorem Inv.advance {zk : Option Handle} (hinv : Inv s) (hstep : s.advance t zk = some s') : Inv s' := by
  obtain ⟨c, d', hc, hnext, hleft, hothers⟩ := advance_cases hstep
  have hmoves := moves_of_next (hinv.stage t c hc) hinv.onlyOpen hnext
  -- every call after the step was one before it, for the same idc and host and of the same kind
  have hback : ∀ t₁ c₁, s'.calls.lookup t₁ = some c₁ → ∃ c₀, s.calls.lookup t₁ = some c₀ ∧ c₁.host = c₀.host ∧
      c₁.opens = c₀.opens ∧ ∀ h, c₁.callback = some h → c₀.callback = some h := fun t₁ c₁ h₁ => by
    by_cases ht : t₁ = t
    · subst ht
      rw [hleft] at h₁
      obtain ⟨hhost, hopens, hcb, -⟩ := hmoves.next c₁ h₁
      exact ⟨c, hc, hhost, hopens, hcb⟩
    · rw [hothers t₁ ht] at h₁
      exact ⟨c₁, h₁, rfl, rfl, fun _ h => h⟩
  refine ⟨?_, ?_, ?_, ?_⟩
  · intro t₁ t₂ c₁ c₂ h₁ h₂ ho₁ ho₂ hhost
    obtain ⟨d₁, hd₁, hh₁, hop₁, -⟩ := hback t₁ c₁ h₁
    obtain ⟨d₂, hd₂, hh₂, hop₂, -⟩ := hback t₂ c₂ h₂
    exact hinv.one t₁ t₂ d₁ d₂ hd₁ hd₂ (hop₁ ▸ ho₁) (hop₂ ▸ ho₂) (hh₁ ▸ hh₂ ▸ hhost)
  · intro t₁ t₂ c₁ c₂ h h₁ h₂ hcb₁ hcb₂
    obtain ⟨d₁, hd₁, -, -, hb₁⟩ := hback t₁ c₁ h₁
    obtain ⟨d₂, hd₂, -, -, hb₂⟩ := hback t₂ c₂ h₂
    exact hinv.serial t₁ t₂ d₁ d₂ h hd₁ hd₂ (hb₁ h hcb₁) (hb₂ h hcb₂)
  · intro t₁ c₁ h₁
    by_cases ht : t₁ = t
    · subst ht
      rw [hleft] at h₁
      exact (hmoves.next c₁ h₁).2.2.2
    · rw [hothers t₁ ht] at h₁
      have hstage := hinv.stage t₁ c₁ h₁
      by_cases hhost : c₁.host = c.host
      · refine hmoves.others c₁ hhost (fun ho => ht ?_) (fun h hcb hcb₁ => ht ?_) hstage
        · exact hinv.one t₁ t c₁ c h₁ hc ho.2 ho.1 hhost
        · exact hinv.serial t₁ t c₁ c h h₁ hc hcb₁ hcb
      · obtain ⟨o, i, k, hat, -⟩ := hinv.at c₁.host
        exact hstage.frame hat (fun o i k => hmoves.frame c₁.host o i k hhost)
  · intro y hy
    by_cases hyc : y = c.host
    · subst hyc
      cases hopens : c.opens with
      | true =>
        cases d' with
        | none => exact hmoves.done rfl hopens
        | some d =>
          obtain ⟨hhost, hop, -⟩ := hmoves.next d rfl
          exact absurd ⟨t, d, hleft, hop.trans hopens, hhost⟩ hy
      | false =>
        have hidle : ¬ s.Opening c.host := by
          rintro ⟨t₁, c₁, h₁, ho₁, hh₁⟩
          have ht : t₁ ≠ t := by
            rintro rfl
            rw [hc] at h₁
            obtain rfl := Option.some.inj h₁
            rw [hopens] at ho₁
            cases ho₁
          exact hy ⟨t₁, c₁, (hothers t₁ ht).trans h₁, ho₁, hh₁⟩
        obtain ⟨o, ho⟩ := hinv.idle _ hidle
        exact ⟨o, hmoves.again hopens o ho⟩
    · have hidle : ¬ s.Opening y := by
        rintro ⟨t₁, c₁, h₁, ho₁, hh₁⟩
        have ht : t₁ ≠ t := by
          rintro rfl
          rw [hc] at h₁
          obtain rfl := Option.some.inj h₁
          exact hyc hh₁.symm
        exact hy ⟨t₁, c₁, (hothers t₁ ht).trans h₁, ho₁, hh₁⟩
      obtain ⟨o, ho⟩ := hinv.idle y hidle
      exact ⟨o, hmoves.frame y o o o hyc ho⟩

/-- **Every step of a call that starts alone keeps the invariant.** -/
theorem Inv.step {a : Action} (hinv : Inv s) (halone : Alone conf s a) (hstep : step conf s a = some s') : Inv s' := by
  cases a with
  | get t idc =>
    rw [Handles.step] at hstep
    split at hstep
    · next ht =>
      cases hx : idcHostOf conf idc with
      | none =>
        rw [hx] at hstep
        obtain rfl := Option.some.inj hstep
        exact hinv
      | some x =>
        rw [hx] at hstep
        dsimp only at hstep
        split at hstep
        · obtain rfl := Option.some.inj hstep
          exact hinv
        · next hno =>
          obtain rfl := Option.some.inj hstep
          have hidle := halone x hx hno
          obtain ⟨o, ho⟩ := hinv.idle x hidle
          obtain rfl : o = none := ho.handle.symm.trans (Finmap.lookup_eq_none.mpr hno)
          exact hinv.start ht.2 ho (fun _ => hidle) nofun
    · cases hstep
  | expired n h =>
    rw [Handles.step] at hstep
    split at hstep
    · next hn =>
      cases hx : s.maps.idchostOf.lookup h with
      | none =>
        rw [hx] at hstep
        obtain rfl := Option.some.inj hstep
        exact hinv
      | some x =>
        rw [hx] at hstep
        obtain rfl := Option.some.inj hstep
        have hidle := halone x hx
        obtain ⟨o, ho⟩ := hinv.idle x hidle
        obtain rfl : o = some h := (ho.idchost h).mp hx
        refine hinv.start hn.1 ho (fun _ => hidle) fun h' hcb => ?_
        rw [← Option.some.inj hcb]
        exact hn.2.2
    · cases hstep
  | connected n h =>
    rw [Handles.step] at hstep
    split at hstep
    · next hn =>
      cases hx : s.maps.idchostOf.lookup h with
      | none =>
        rw [hx] at hstep
        obtain rfl := Option.some.inj hstep
        exact hinv
      | some x =>
        rw [hx] at hstep
        obtain rfl := Option.some.inj hstep
        refine hinv.start hn.1 ⟨hinv.onlyOpen h x hx, hx⟩ nofun fun h' hcb => ?_
        rw [← Option.some.inj hcb]
        exact hn.2.2
    · cases hstep
  | advance t zk => exact hinv.advance hstep

theorem inv_of_reaches (hr : Reaches (step conf) (Alone conf) .init s) : Inv s :=
  hr.invariant Inv inv_init (fun hinv halone hstep => hinv.step halone hstep)

/-! ### Calls that overlap -/

/-- Calls in progress go on, and none starts. -/
def Going : State → Action → Prop
  | _, .advance _ _ => True
  | _, _ => False

theorem Going.alone {a : Action} (hg : Going s a) : Alone conf s a := by
  cases a with
  | advance t zk => exact trivial
  | get t idc => cases hg
  | expired n h => cases hg
  | connected n h => cases hg

theorem Inv.going (hinv : Inv s) (hr : Reaches (Handles.step conf) Going s s') : Inv s' :=
  hr.invariant Inv hinv (fun hi hg hstep => hi.step hg.alone hstep)

/-- How many steps a call has left. -/
def Call.left : Call → Nat
  | .deleteHandle _ _ => 6
  | .deleteHost _ _ => 5
  | .close _ _ => 4
  | .init _ => 3
  | .reinit _ => 3
  | .enterHandle _ _ => 2
  | .enterHost _ _ => 1
  | .againHandle _ _ => 2
  | .againHost _ _ => 1

theorem reaches_next {m m' : Maps} {zk : Option Handle} {d : Call} (hn : c.next m zk = some (m', some d))
    (f : Finmap (fun _ : Thread => Call)) (t : Thread) :
    Reaches (step conf) Going ⟨m, f.insert t c⟩ ⟨m', f.insert t d⟩ := by
  refine .tail .start (a := .advance t zk) trivial ?_
  rw [Handles.step, State.advance, Finmap.lookup_insert]
  dsimp only
  rw [hn]
  dsimp only
  rw [Finmap.insert_insert]

theorem reaches_done {m m' : Maps} {zk : Option Handle} (hn : c.next m zk = some (m', none))
    {f : Finmap (fun _ : Thread => Call)} {t : Thread} (ht : t ∉ f) :
    Reaches (step conf) Going ⟨m, f.insert t c⟩ ⟨m', f⟩ := by
  have herase : (f.insert t c).erase t = f := by
    refine Finmap.ext_lookup fun t' => ?_
    by_cases htt : t' = t
    · rw [htt, Finmap.lookup_erase, Finmap.lookup_eq_none.mpr ht]
    · rw [Finmap.lookup_erase_ne htt, Finmap.lookup_insert_of_ne _ htt]
  refine .tail .start (a := .advance t zk) trivial ?_
  rw [Handles.step, State.advance, Finmap.lookup_insert]
  dsimp only
  rw [hn]
  dsimp only
  rw [herase]

theorem exists_fresh (m : Maps) : ∃ h, h ∉ m.opened := by
  obtain ⟨h, hh⟩ := Infinite.exists_notMem_finset m.opened.keys
  exact ⟨h, fun hm => hh (Finmap.mem_keys.mpr hm)⟩

/-- A call can always take a step, and its last one enters a handle. -/
theorem exists_next (c : Call) (m : Maps) : ∃ zk m', (∃ d : Call, c.next m zk = some (m', some d) ∧
      d.left < c.left ∧ d.host = c.host) ∨
    (c.next m zk = some (m', none) ∧ ∃ h, m'.handleOf.lookup c.host = some h) := by
  obtain ⟨h', hfresh⟩ := exists_fresh m
  cases c with
  | init x => exact ⟨some h', _, .inl ⟨_, if_neg hfresh, by simp [Call.left], rfl⟩⟩
  | reinit x => exact ⟨some h', _, .inl ⟨_, if_neg hfresh, by simp [Call.left], rfl⟩⟩
  | deleteHandle h x => exact ⟨none, _, .inl ⟨_, rfl, by simp [Call.left], rfl⟩⟩
  | deleteHost h x => exact ⟨none, _, .inl ⟨_, rfl, by simp [Call.left], rfl⟩⟩
  | close h x => exact ⟨none, _, .inl ⟨_, rfl, by simp [Call.left], rfl⟩⟩
  | enterHandle x h => exact ⟨none, _, .inl ⟨_, rfl, by simp [Call.left], rfl⟩⟩
  | againHandle h x => exact ⟨none, _, .inl ⟨_, rfl, by simp [Call.left], rfl⟩⟩
  | enterHost x h => exact ⟨none, _, .inr ⟨rfl, h, Finmap.lookup_insert _⟩⟩
  | againHost h x => exact ⟨none, _, .inr ⟨rfl, h, Finmap.lookup_insert _⟩⟩

/-- **A call can be finished**, whatever other calls are in progress. -/
theorem exists_finish (conf : Bytes → Option Bytes) : ∀ (n : Nat) (c : Call) (m : Maps), c.left ≤ n →
    ∃ m', (∃ h, m'.handleOf.lookup c.host = some h) ∧ ∀ (f : Finmap (fun _ : Thread => Call)) (t : Thread), t ∉ f →
      Reaches (step conf) Going ⟨m, f.insert t c⟩ ⟨m', f⟩ := by
  intro n
  induction n with
  | zero =>
    intro c m hn
    cases c <;> exact absurd hn (by simp [Call.left])
  | succ n ih =>
    intro c m hn
    obtain ⟨zk, m₁, ⟨d, hnext, hlt, hhost⟩ | ⟨hnext, hentered⟩⟩ := exists_next c m
    · obtain ⟨m', hentered, hrun⟩ := ih d m₁ (by omega)
      exact ⟨m', hhost ▸ hentered, fun f t ht => (reaches_next hnext f t).trans (hrun f t ht)⟩
    · exact ⟨m₁, hentered, fun f t ht => reaches_done hnext ht⟩

theorem insert_erase_self {f : Finmap (fun _ : Thread => Call)} (hc : f.lookup t = some c) :
    (f.erase t).insert t c = f := by
  refine Finmap.ext_lookup fun t' => ?_
  by_cases ht : t' = t
  · rw [ht, Finmap.lookup_insert, hc]
  · rw [Finmap.lookup_insert_of_ne _ ht, Finmap.lookup_erase_ne ht]

/-- **All calls but one can be finished**, with a call `c` of another thread in progress that the
invariant does not know. -/
theorem exists_settled {t₀ : Thread} {c₀ : Call} (c : Call) : ∀ (n : Nat) (m : Maps) (f : Finmap (fun _ : Thread => Call)),
    (f.keys.erase t₀).card = n → f.lookup t₀ = some c₀ → t ∉ f → Inv ⟨m, f⟩ →
    ∃ m', Inv ⟨m', (∅ : Finmap (fun _ : Thread => Call)).insert t₀ c₀⟩ ∧
      Reaches (step conf) Going ⟨m, f.insert t c⟩ ⟨m', ((∅ : Finmap (fun _ : Thread => Call)).insert t₀ c₀).insert t c⟩ := by
  intro n
  induction n with
  | zero =>
    intro m f hcard hc₀ _ hinv
    have honly : f = (∅ : Finmap (fun _ : Thread => Call)).insert t₀ c₀ := by
      refine Finmap.ext_lookup fun t' => ?_
      by_cases ht' : t' = t₀
      · rw [ht', hc₀, Finmap.lookup_insert]
      · have hno : t' ∉ f := fun hm => by
          have hmem : t' ∈ f.keys.erase t₀ := Finset.mem_erase.mpr ⟨ht', Finmap.mem_keys.mpr hm⟩
          rw [Finset.card_eq_zero.mp hcard] at hmem
          cases hmem
        rw [Finmap.lookup_insert_of_ne _ ht', Finmap.lookup_eq_none.mpr hno, Finmap.lookup_empty]
    rw [← honly]
    exact ⟨m, hinv, .start⟩
  | succ n ih =>
    intro m f hcard hc₀ ht hinv
    obtain ⟨t₁, ht₁⟩ : (f.keys.erase t₀).Nonempty := Finset.card_pos.mp (by omega)
    obtain ⟨hne, hmem⟩ := Finset.mem_erase.mp ht₁
    obtain ⟨c₁, hc₁⟩ := Finmap.mem_iff.mp (Finmap.mem_keys.mp hmem)
    have htt : t ≠ t₁ := fun h0 => ht (h0 ▸ Finmap.mem_keys.mp hmem)
    obtain ⟨m₁, -, hrun⟩ := exists_finish conf c₁.left c₁ m (Nat.le_refl _)
    -- the call of `t₁` is finished, with and without that of `t`
    have hrest : t₁ ∉ f.erase t₁ := Finmap.notMem_erase_self
    have hinv₁ : Inv ⟨m₁, f.erase t₁⟩ := by
      have := hrun (f.erase t₁) t₁ hrest
      rw [insert_erase_self hc₁] at this
      exact hinv.going this
    have hrun₁ : Reaches (step conf) Going ⟨m, f.insert t c⟩ ⟨m₁, (f.erase t₁).insert t c⟩ := by
      have hcalls : f.insert t c = ((f.erase t₁).insert t c).insert t₁ c₁ := by
        rw [Finmap.insert_insert_of_ne _ htt, insert_erase_self hc₁]
      rw [hcalls]
      refine hrun _ t₁ fun hm => ?_
      rcases Finmap.mem_insert.mp hm with h0 | h0
      · exact htt h0.symm
      · exact hrest h0
    have hkeys : (f.erase t₁).keys.erase t₀ = (f.keys.erase t₀).erase t₁ := by
      rw [Finmap.keys_erase, Finset.erase_right_comm]
    obtain ⟨m', hinv', hrun'⟩ := ih m₁ (f.erase t₁) (by rw [hkeys, Finset.card_erase_of_mem ht₁]; omega)
      (by rw [Finmap.lookup_erase_ne hne.symm, hc₀]) (fun hm => ht (Finmap.mem_erase.mp hm).2) hinv₁
    exact ⟨m', hinv', hrun₁.trans hrun'⟩

/-- The maps with a new handle entered. -/
def Maps.enter (m : Maps) (x : Bytes) (h : Handle) : Maps :=
  ⟨m.handleOf.insert x h, m.idchostOf.insert h x, m.opened.insert h x⟩

theorem reaches_enter (hc : c = .init x ∨ c = .reinit x) {m : Maps} (hh : h ∉ m.opened)
    {f : Finmap (fun _ : Thread => Call)} (ht : t ∉ f) :
    Reaches (step conf) Going ⟨m, f.insert t c⟩ ⟨m.enter x h, f⟩ := by
  have hopen : c.next m (some h) =
      some ({ m with opened := m.opened.insert h x }, some (.enterHandle x h)) := by
    rcases hc with rfl | rfl <;> exact if_neg hh
  have henter : (Call.enterHandle x h).next { m with opened := m.opened.insert h x } none =
      some (⟨m.handleOf, m.idchostOf.insert h x, m.opened.insert h x⟩, some (.enterHost x h)) := rfl
  have hdone : (Call.enterHost x h).next ⟨m.handleOf, m.idchostOf.insert h x, m.opened.insert h x⟩ none =
      some (m.enter x h, none) := rfl
  exact ((reaches_next hopen f t).trans (reaches_next henter f t)).trans (reaches_done hdone ht)

/-- Two handles are opened when a thread finds none while another opens one. -/
theorem exists_doubled (conf : Bytes → Option Bytes) (hinv : Inv s) (ht : t ∉ s.calls) (hx : s.Opening x) :
    ∃ s', Reaches (step conf) Going { s with calls := s.calls.insert t (.init x) } s' ∧ s'.Quiet ∧ ¬ s'.maps.Exact := by
  obtain ⟨t₀, c₀, hc₀, -, rfl⟩ := hx
  have htt : t₀ ≠ t := fun h0 => ht (h0 ▸ Finmap.mem_iff.mpr ⟨c₀, hc₀⟩)
  obtain ⟨m₁, hinv₁, hrun₁⟩ := exists_settled (.init c₀.host) _ s.maps s.calls rfl hc₀ ht hinv
  obtain ⟨m₂, ⟨h₁, hh₁⟩, hrun₂⟩ := exists_finish conf c₀.left c₀ m₁ (Nat.le_refl _)
  -- the first handle is entered
  have hinv₂ : Inv ⟨m₂, ∅⟩ := hinv₁.going (hrun₂ ∅ t₀ Finmap.notMem_empty)
  have hreg : m₂.idchostOf.lookup h₁ = some c₀.host := ((hinv₂.exact rfl).inverse _ _).mp hh₁
  have hopen : h₁ ∈ m₂.opened := Finmap.mem_iff.mpr ⟨_, hinv₂.onlyOpen h₁ _ hreg⟩
  obtain ⟨h₂, hfresh⟩ := exists_fresh m₂
  have hne : h₁ ≠ h₂ := fun h0 => hfresh (h0 ▸ hopen)
  have hother : t₀ ∉ (∅ : Finmap (fun _ : Thread => Call)).insert t (.init c₀.host) := fun hm =>
    (Finmap.mem_insert.mp hm).elim htt Finmap.notMem_empty
  have hrun : Reaches (step conf) Going { s with calls := s.calls.insert t (.init c₀.host) } ⟨m₂.enter c₀.host h₂, ∅⟩ := by
    refine hrun₁.trans ?_
    rw [Finmap.insert_insert_of_ne _ htt]
    exact (hrun₂ _ t₀ hother).trans (reaches_enter (.inl rfl) hfresh Finmap.notMem_empty)
  refine ⟨_, hrun, rfl, fun hex => ?_⟩
  have hback : (m₂.idchostOf.insert h₂ c₀.host).lookup h₁ = some c₀.host := by
    rw [Finmap.lookup_insert_of_ne _ hne, hreg]
  have hfirst := (hex.inverse _ _).mpr hback
  have hlast : (m₂.handleOf.insert c₀.host h₂).lookup c₀.host = some h₂ := Finmap.lookup_insert _
  exact hne (Option.some.inj (hfirst.symm.trans hlast))

/-- A handle that is entered can only expire while its entry is not complete. -/
theorem Inv.enterHost_of_expired (hinv : Inv s) {c₀ : Call} {t₀ : Thread} (hc₀ : s.calls.lookup t₀ = some c₀)
    (hopens : c₀.opens = true) (hx : s.maps.idchostOf.lookup h = some c₀.host) (hfree : s.CallbackFree h) :
    c₀ = .enterHost c₀.host h := by
  have hstage := hinv.stage t₀ c₀ hc₀
  have hcb : c₀.callback ≠ some h := by
    have := hfree t₀ (Finmap.mem_keys.mpr (Finmap.mem_iff.mpr ⟨c₀, hc₀⟩))
    rwa [hc₀, Option.bind_some] at this
  cases c₀ with
  | enterHost y h' =>
    obtain ⟨k, hat, -⟩ := hstage
    rw [Option.some.inj ((hat.idchost h).mp hx)]
    rfl
  | deleteHandle h' y => exact absurd ((At.idchost hstage h).mp hx) hcb
  | deleteHost h' y => exact nomatch (At.idchost hstage h).mp hx
  | close h' y => exact nomatch (At.idchost hstage h).mp hx
  | init y => exact nomatch (At.idchost hstage h).mp hx
  | reinit y => exact nomatch (At.idchost hstage h).mp hx
  | enterHandle y h' => exact nomatch (At.idchost hstage h).mp hx
  | againHandle h' y => cases hopens
  | againHost h' y => cases hopens

/-- The entry of a closed handle comes back when the handle expires before it is complete. -/
theorem exists_stale (conf : Bytes → Option Bytes) (hinv : Inv s) (ht : t ∉ s.calls)
    (hx : s.maps.idchostOf.lookup h = some x)
    (hfree : s.CallbackFree h) (hop : s.Opening x) :
    ∃ s', Reaches (step conf) Going { s with calls := s.calls.insert t (.deleteHandle h x) } s' ∧ s'.Quiet ∧
      ¬ s'.maps.Exact := by
  obtain ⟨t₀, c₀, hc₀, hopens, rfl⟩ := hop
  have htt : t₀ ≠ t := fun h0 => ht (h0 ▸ Finmap.mem_iff.mpr ⟨c₀, hc₀⟩)
  have hentry := hinv.enterHost_of_expired hc₀ hopens hx hfree
  obtain ⟨m₁, hinv₁, hrun₁⟩ := exists_settled (.deleteHandle h c₀.host) _ s.maps s.calls rfl hc₀ ht hinv
  have hstage := hinv₁.stage t₀ c₀ (Finmap.lookup_insert _)
  rw [hentry] at hstage
  obtain ⟨k, hat, -⟩ := hstage
  have hopen : h ∈ m₁.opened := Finmap.mem_iff.mpr ⟨_, (hat.opened h).mpr rfl⟩
  obtain ⟨h', hfresh⟩ := exists_fresh m₁
  have hne : h' ≠ h := fun h0 => hfresh (h0 ▸ hopen)
  -- the handle is closed and replaced, and then its entry is completed
  have hdelete : (Call.deleteHandle h c₀.host).next m₁ none =
      some (⟨m₁.handleOf, m₁.idchostOf.erase h, m₁.opened⟩, some (.deleteHost h c₀.host)) := rfl
  have hdelete' : (Call.deleteHost h c₀.host).next ⟨m₁.handleOf, m₁.idchostOf.erase h, m₁.opened⟩ none =
      some (⟨m₁.handleOf.erase c₀.host, m₁.idchostOf.erase h, m₁.opened⟩, some (.close h c₀.host)) := rfl
  have hclose : (Call.close h c₀.host).next ⟨m₁.handleOf.erase c₀.host, m₁.idchostOf.erase h, m₁.opened⟩ none =
      some (⟨m₁.handleOf.erase c₀.host, m₁.idchostOf.erase h, m₁.opened.erase h⟩, some (.reinit c₀.host)) := rfl
  have hfresh' : h' ∉ m₁.opened.erase h := fun hm => hfresh (Finmap.mem_erase.mp hm).2
  have hother : t ∉ (∅ : Finmap (fun _ : Thread => Call)).insert t₀ c₀ := fun hm =>
    (Finmap.mem_insert.mp hm).elim (Ne.symm htt) Finmap.notMem_empty
  have hclosed : Reaches (step conf) Going ⟨m₁, ((∅ : Finmap (fun _ : Thread => Call)).insert t₀ c₀).insert t _⟩
      ⟨_, ((∅ : Finmap (fun _ : Thread => Call)).insert t₀ c₀).insert t _⟩ :=
    ((reaches_next hdelete _ t).trans (reaches_next hdelete' _ t)).trans (reaches_next hclose _ t)
  have hreplaced := hclosed.trans (reaches_enter (.inr rfl) hfresh' hother)
  have hlast : c₀.next (Maps.enter ⟨m₁.handleOf.erase c₀.host, m₁.idchostOf.erase h, m₁.opened.erase h⟩ c₀.host h') none =
      some (⟨((m₁.handleOf.erase c₀.host).insert c₀.host h').insert c₀.host h, (m₁.idchostOf.erase h).insert h' c₀.host,
        (m₁.opened.erase h).insert h' c₀.host⟩, none) := by
    rw [hentry]
    rfl
  refine ⟨_, (hrun₁.trans hreplaced).trans (reaches_done hlast Finmap.notMem_empty), rfl, fun hex => ?_⟩
  have hback : ((m₁.idchostOf.erase h).insert h' c₀.host).lookup h' = some c₀.host := Finmap.lookup_insert _
  have hfirst := (hex.inverse _ _).mpr hback
  have hentered : (((m₁.handleOf.erase c₀.host).insert c₀.host h').insert c₀.host h).lookup c₀.host = some h :=
    Finmap.lookup_insert _
  exact hne (Option.some.inj (hfirst.symm.trans hentered))

end

/-- **One handle for each idc and host, exactly if the calls that open one do not overlap.**  In every
state of a run whose calls each start to open a handle alone, the maps are exact whenever no call is
in progress; and from every such state, a step that starts a second one can be followed by a run
that ends, with no call in progress, in maps that are not exact. -/
theorem one_handle_exact (conf : Bytes → Option Bytes) (s : State) (hs : Reaches (step conf) (Alone conf) .init s) :
    (s.Quiet → s.maps.Exact) ∧
    ∀ a s', step conf s a = some s' → ¬ Alone conf s a →
      ∃ s'', Reaches (step conf) (fun _ _ => True) s' s'' ∧ s''.Quiet ∧ ¬ s''.maps.Exact := by
  have hinv := inv_of_reaches hs
  refine ⟨hinv.exact, fun a s' hstep hnot => ?_⟩
  cases a with
  | get t idc =>
    simp only [Alone, not_forall, not_not] at hnot
    obtain ⟨x, hx, hno, hop⟩ := hnot
    rw [step] at hstep
    split at hstep
    · next ht =>
      rw [hx] at hstep
      dsimp only at hstep
      rw [if_neg hno] at hstep
      obtain rfl := Option.some.inj hstep
      obtain ⟨s'', hr, hq, hbad⟩ := exists_doubled conf hinv ht.2 hop
      exact ⟨s'', hr.mono (fun _ _ _ => trivial), hq, hbad⟩
    · cases hstep
  | expired n h =>
    simp only [Alone, not_forall, not_not] at hnot
    obtain ⟨x, hx, hop⟩ := hnot
    rw [step] at hstep
    split at hstep
    · next hn =>
      rw [hx] at hstep
      obtain rfl := Option.some.inj hstep
      obtain ⟨s'', hr, hq, hbad⟩ := exists_stale conf hinv hn.1 hx hn.2.2 hop
      exact ⟨s'', hr.mono (fun _ _ _ => trivial), hq, hbad⟩
    · cases hstep
  | connected n h => exact absurd trivial hnot
  | advance t zk => exact absurd trivial hnot

/-- The configuration of the idc `i`. -/
def oneIdc (idc : Bytes) : Option Bytes := if idc = ascii "i" then some (ascii "host:2181") else none

/-- A test for `Alone`: a call starts while no other is in progress. -/
def startsAlone (s : State) : Action → Bool
  | .advance _ _ => true
  | _ => s.calls = ∅

theorem alone_of_startsAlone (conf : Bytes → Option Bytes) (s : State) (a : Action) (h : startsAlone s a = true) :
    Alone conf s a := by
  have hidle : s.calls = ∅ → ∀ x, ¬ s.Opening x := by
    rintro h0 x ⟨t, c, hc, -⟩
    rw [h0] at hc
    cases hc
  cases a with
  | get t idc => exact fun x _ _ => hidle (of_decide_eq_true h) x
  | expired n h' => exact fun x _ => hidle (of_decide_eq_true h) x
  | connected n h' => exact trivial
  | advance t zk => exact trivial

/-- One thread after the other. -/
theorem one_handle_single_thread : ∃ s, Reaches (step oneIdc) (Alone oneIdc) .init s ∧ s.Quiet ∧
    s.maps.handleOf.lookup (serializeToIdcHost (ascii "i") (ascii "host:2181")) = some 7 ∧ s.maps.Exact := by
  have hrun : (run (guarded startsAlone (step oneIdc)) .init [.get .main (ascii "i"), .advance .main (some 7),
      .advance .main none, .advance .main none, .connected 0 7, .advance (.completion 0) none,
      .advance (.completion 0) none]).any
      (fun s => s.calls = ∅ ∧ s.maps.handleOf.lookup (serializeToIdcHost (ascii "i") (ascii "host:2181")) = some 7) =
        true := by decide +kernel
  obtain ⟨s, hs, hend⟩ := (Option.any_eq_true _ _).mp hrun
  obtain ⟨hquiet, hhandle⟩ := of_decide_eq_true hend
  have hr := Reaches.start.guardedRun startsAlone (alone_of_startsAlone oneIdc) hs
  exact ⟨s, hr, hquiet, hhandle, (one_handle_exact oneIdc s hr).1 hquiet⟩

/-- **Two threads ask for a handle at the same time.**  Both open one; the first stays open, and no lookup
finds it. -/
theorem two_threads_two_handles : ∃ s, Reaches (step oneIdc) (fun _ _ => True) .init s ∧ s.Quiet ∧
    s.maps.handleOf.lookup (serializeToIdcHost (ascii "i") (ascii "host:2181")) = some 8 ∧
    s.maps.idchostOf.lookup 7 = some (serializeToIdcHost (ascii "i") (ascii "host:2181")) ∧
    s.maps.opened.lookup 7 = some (serializeToIdcHost (ascii "i") (ascii "host:2181")) ∧ ¬ s.maps.Exact := by
  have hrun : (run (step oneIdc) .init [.get .main (ascii "i"), .get .assist (ascii "i"), .advance .main (some 7),
      .advance .main none, .advance .main none, .advance .assist (some 8), .advance .assist none,
      .advance .assist none]).any
      (fun s => s.calls = ∅ ∧ s.maps.handleOf.lookup (serializeToIdcHost (ascii "i") (ascii "host:2181")) = some 8 ∧
        s.maps.idchostOf.lookup 7 = some (serializeToIdcHost (ascii "i") (ascii "host:2181")) ∧
        s.maps.opened.lookup 7 = some (serializeToIdcHost (ascii "i") (ascii "host:2181"))) = true := by
    decide +kernel
  obtain ⟨s, hs, hend⟩ := (Option.any_eq_true _ _).mp hrun
  obtain ⟨hquiet, hhandle, hentry, hopen⟩ := of_decide_eq_true hend
  refine ⟨s, reaches_of_run hs, hquiet, hhandle, hentry, hopen, fun hex => ?_⟩
  rw [(hex.inverse _ _).mpr hentry] at hhandle
  exact absurd (Option.some.inj hhandle) (by decide)

end QConf.Handles
