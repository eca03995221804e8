/-
Module: TreeRssi.Proofs.NeighbourTable
Layer: Proofs
Purpose: The neighbour plane with its memory. In every run the blocks in use are the listed ones, and
  their timers are the ones that are set; so the list of entries behaves as `ParentState` says, and what
  holds of its elected parent holds of the node.
Imports: TreeRssi.Core.NeighbourTable, TreeRssi.Lib.Run, TreeRssi.Proofs.BeaconSteps
Trusted boundary: none
Main exports: Held, EntryFor, view_registerParent, view_keepaliveExpired, NeighbourTable.simulates,
  ParentSound, neighbourTable_invariant
Open obligations: none
-/
import TreeRssi.Core.NeighbourTable
import TreeRssi.Lib.Run
import TreeRssi.Proofs.BeaconSteps

namespace TreeRssi

open BlockPool LabelledRun

/-! ### The blocks -/

/-- The blocks in use are the listed ones, their timers are the ones that are set, and no two entries
    are of one neighbour. -/
structure Held (t : NeighbourTable) : Prop where
  owned : Owned t.mem t.preferredParentList
  armed : ∀ p, t.keepalive p = true ↔ p ∈ t.preferredParentList
  ids : IdsNodup t.view.preferredParentList

theorem Held.boot (me : LinkAddr) : Held (NeighbourTable.boot me) where
  owned := owned_empty
  armed _ := by simp [NeighbourTable.boot]
  ids := List.nodup_nil

variable {t t' : NeighbourTable} {me sender : LinkAddr} {rssiP rssiA : Int} {p : ParentPtr}

theorem Held.eq_of_id (held : Held t) {q : ParentPtr} (hp : p ∈ t.preferredParentList)
    (hq : q ∈ t.preferredParentList) (same : (t.block p).id = (t.block q).id) : p = q := by
  have ids := held.ids
  rw [IdsNodup, NeighbourTable.view, List.map_map] at ids
  exact List.inj_on_of_nodup_map ids hp hq same

/-- The three outcomes of looking for the sender's entry. -/
inductive EntryFor (t : NeighbourTable) (sender : LinkAddr) :
    Option (ParentPtr × NeighbourTable) → Prop where
  | found {p : ParentPtr} (listed : p ∈ t.preferredParentList) (own : (t.block p).id = sender) :
      EntryFor t sender (some (p, t))
  | taken {p : ParentPtr} {mem : Pool preferredParentMem}
      (absent : ∀ q ∈ t.preferredParentList, (t.block q).id ≠ sender)
      (allocated : alloc t.mem = some (p, mem)) :
      EntryFor t sender (some (p, { t with
        mem := mem
        block := Function.update t.block p { t.block p with id := sender }
        preferredParentList := push p t.preferredParentList }))
  | exhausted (absent : ∀ q ∈ t.preferredParentList, (t.block q).id ≠ sender)
      (full : alloc t.mem = none) : EntryFor t sender none

theorem entryFor_cases (t : NeighbourTable) (sender : LinkAddr) :
    EntryFor t sender (t.entryFor sender) := by
  rw [NeighbourTable.entryFor]
  cases found : t.preferredParentList.find? fun p => (t.block p).id = sender with
  | some p =>
      exact .found (List.mem_of_find?_eq_some found) (by simpa using List.find?_some found)
  | none =>
      have absent : ∀ q ∈ t.preferredParentList, (t.block q).id ≠ sender := by
        simpa using List.find?_eq_none.mp found
      cases allocated : alloc t.mem with
      | none => exact .exhausted absent allocated
      | some taken => exact .taken absent allocated

/-! ### The list of entries -/

theorem refreshEntry_absent {list : List PreferredParent} (absent : ∀ q ∈ list, q.id ≠ sender) :
    refreshEntry sender rssiP rssiA list = none := by
  induction list with
  | nil => rfl
  | cons q rest ih =>
      obtain ⟨other, others⟩ := List.forall_mem_cons.mp absent
      rw [refreshEntry, if_neg other, ih others]
      rfl

/-- Writing to a listed block rewrites the entry of its neighbour. -/
theorem refreshEntry_block {block : ParentPtr → PreferredParent} {list : List ParentPtr}
    (nodup : list.Nodup) (distinct : ∀ q ∈ list, (block q).id = sender → q = p) (listed : p ∈ list)
    (own : (block p).id = sender) :
    refreshEntry sender rssiP rssiA (list.map block) =
      some (list.map (Function.update block p
        { block p with rssiP := rssiP, rssiA := rssiA })) := by
  induction list with
  | nil => cases listed
  | cons q rest ih =>
      obtain ⟨notIn, nodup⟩ := List.nodup_cons.mp nodup
      rw [List.map_cons, List.map_cons, refreshEntry]
      by_cases here : q = p
      · subst here
        rw [if_pos own, contents_update block _ notIn, Function.update_self]
      · have other : (block q).id ≠ sender := fun same => here (distinct q (by simp) same)
        have later : p ∈ rest := (List.mem_cons.mp listed).resolve_left fun same => here same.symm
        rw [if_neg other, ih nodup (fun r member => distinct r (List.mem_cons_of_mem q member)) later,
          Function.update_of_ne here]
        rfl

/-- What is left of `t` when the entry `p` of the sender is found or taken: `p` is the only block that is
    listed and may have no timer. -/
structure Taken (t : NeighbourTable) (p : ParentPtr) (t' : NeighbourTable) : Prop where
  owned : Owned t'.mem t'.preferredParentList
  listed : p ∈ t'.preferredParentList
  armed : ∀ q, q = p ∨ t.keepalive q = true ↔ q ∈ t'.preferredParentList
  keepalive : t'.keepalive = t.keepalive
  bestParentId : t'.bestParentId = t.bestParentId
  myPathRssi : t'.myPathRssi = t.myPathRssi

/-- What `register_parent` does before the election is what `storeEntry` does to the list. -/
theorem Held.stored (held : Held t) (sender : LinkAddr) (rssiP rssiA : Int) :
    (t.entryFor sender = none ∧ storeEntry sender rssiP rssiA t.view.preferredParentList = none) ∨
    ∃ p t', t.entryFor sender = some (p, t') ∧ Taken t p t' ∧
      storeEntry sender rssiP rssiA t.view.preferredParentList =
        some (t'.refresh p rssiP rssiA).view.preferredParentList := by
  have cases_ := entryFor_cases t sender
  generalize result : t.entryFor sender = found at cases_
  cases cases_ with
  | @found p listed own =>
      have refreshed : refreshEntry sender rssiP rssiA (t.preferredParentList.map t.block) = _ :=
        refreshEntry_block held.owned.nodup
          (fun q member same => held.eq_of_id member listed (same.trans own.symm)) listed own
      refine .inr ⟨p, t, rfl, ⟨held.owned, listed, fun q => ?_, rfl, rfl, rfl⟩, ?_⟩
      · rw [held.armed, or_iff_right_iff_imp]
        rintro rfl
        exact listed
      · change storeEntry sender rssiP rssiA (t.preferredParentList.map t.block) = _
        rw [storeEntry, refreshed]
        rfl
  | @taken p mem absent allocated =>
      have fresh := held.owned.fresh allocated
      have room : t.view.preferredParentList.length < preferredParentMem := by
        by_contra full
        have none := held.owned.alloc_none.mpr (by simpa [NeighbourTable.view] using full)
        rw [none] at allocated
        cases allocated
      have unknown : refreshEntry sender rssiP rssiA t.view.preferredParentList = none :=
        refreshEntry_absent (by simpa [NeighbourTable.view] using absent)
      refine .inr ⟨p, _, rfl, ⟨held.owned.push allocated, by simp [push], fun q => ?_, rfl, rfl, rfl⟩, ?_⟩
      · rw [held.armed, push_new fresh, List.mem_cons]
      · rw [storeEntry, unknown]
        simp only [if_pos room]
        simp [NeighbourTable.view, NeighbourTable.refresh, push_new fresh, contents_update _ _ fresh]
  | exhausted absent full =>
      have unknown : refreshEntry sender rssiP rssiA t.view.preferredParentList = none :=
        refreshEntry_absent (by simpa [NeighbourTable.view] using absent)
      have noRoom := held.owned.alloc_none.mp full
      refine .inl ⟨rfl, ?_⟩
      rw [storeEntry, unknown]
      simp only [NeighbourTable.view, List.length_map]
      rw [if_neg (Nat.not_lt.mpr noRoom)]

/-- Setting the timer of the entry leaves no listed block without one. -/
theorem Taken.held (taken : Taken t p t')
    (ids : IdsNodup (t'.refresh p rssiP rssiA).view.preferredParentList) :
    Held (t'.refresh p rssiP rssiA) where
  owned := taken.owned
  armed q := by
    change Function.update t'.keepalive p true q = true ↔ q ∈ t'.preferredParentList
    rw [← taken.armed, taken.keepalive]
    by_cases own : q = p
    · simp [own]
    · simp [own]
  ids := ids

/-! ### The election -/

theorem view_electStep (t : NeighbourTable) (best : Int × Option ParentPtr) (q : ParentPtr) :
    electStep (best.1, best.2.map t.block) (t.block q) =
      ((t.electStep best q).1, (t.electStep best q).2.map t.block) := by
  rw [TreeRssi.electStep, NeighbourTable.electStep]
  split
  · rfl
  · rfl

/-- The election over the blocks finds the entry that the election over the list finds. -/
theorem view_elect (t : NeighbourTable) :
    elect t.view.preferredParentList = (t.elect.1, t.elect.2.map t.block) := by
  have folds : ∀ (list : List ParentPtr) (best : Int × Option ParentPtr),
      (list.map t.block).foldl electStep (best.1, best.2.map t.block) =
        ((list.foldl t.electStep best).1, (list.foldl t.electStep best).2.map t.block) := by
    intro list
    induction list with
    | nil => exact fun _ => rfl
    | cons q rest ih =>
        intro best
        rw [List.map_cons, List.foldl_cons, view_electStep, ih]
        rfl
  exact folds t.preferredParentList (noPath, none)

/-! ### The callbacks -/

theorem Held.chooseParent (held : Held t) (me : LinkAddr) : Held (t.chooseParent me) := by
  rw [NeighbourTable.chooseParent]
  by_cases isRoot : me.u8_0 = 1
  · rwa [if_pos isRoot]
  · rw [if_neg isRoot]
    cases elected : t.elect with
    | mk bestPath winner =>
        cases winner with
        | none => exact held
        | some winner => exact ⟨held.owned, held.armed, held.ids⟩

/-- `register_parent` does to the list of entries what the model of the list says. -/
theorem Held.view_registerParent (held : Held t) (me sender : LinkAddr) (received : Beacon)
    (lastRssi : Int) :
    Held (t.registerParent me sender received lastRssi) ∧
      (t.registerParent me sender received lastRssi).view =
        registerParent me t.view sender received lastRssi := by
  rcases held.stored sender (int16 (received.rssiP + lastRssi)) lastRssi with
    ⟨none, refused⟩ | ⟨p, t', found, taken, stored⟩
  · rw [NeighbourTable.registerParent, none, registerParent, refused]
    exact ⟨held, rfl⟩
  · have held' := taken.held (storeEntry_nodup held.ids stored)
    have best : t'.bestParentId = t.view.bestParentId := taken.bestParentId
    have path : t'.myPathRssi = t.view.myPathRssi := taken.myPathRssi
    rw [NeighbourTable.registerParent, found, registerParent, stored]
    refine ⟨held'.chooseParent me, ?_⟩
    simp only [NeighbourTable.chooseParent, view_elect]
    by_cases isRoot : me.u8_0 = 1
    · rw [if_pos isRoot, if_pos isRoot, ← best, ← path]
      rfl
    · rw [if_neg isRoot, if_neg isRoot]
      cases elected : (t'.refresh p (int16 (received.rssiP + lastRssi)) lastRssi).elect with
      | mk bestPath winner =>
          cases winner with
          | none =>
              rw [← best, ← path]
              rfl
          | some winner => rfl

/-- The contents of a list that a block leaves. -/
theorem Held.erase_block (held : Held t) (listed : p ∈ t.preferredParentList) :
    (t.preferredParentList.erase p).map t.block =
      (t.preferredParentList.map t.block).erase (t.block p) := by
  have distinct : ∀ q ∈ t.preferredParentList, t.block q = t.block p → q = p := fun q member same =>
    held.eq_of_id member listed (congrArg PreferredParent.id same)
  clear held
  generalize t.preferredParentList = list at listed distinct
  induction list with
  | nil => cases listed
  | cons q rest ih =>
      by_cases here : q = p
      · subst here
        simp
      · have other : t.block q ≠ t.block p := fun same => here (distinct q (by simp) same)
        have later : p ∈ rest := (List.mem_cons.mp listed).resolve_left fun same => here same.symm
        have rest' := ih later fun r member => distinct r (List.mem_cons_of_mem q member)
        rw [List.erase_cons_tail (by simpa using here), List.map_cons, List.map_cons, rest',
          List.erase_cons_tail (by simpa using other)]

/-- `keepalive_expired` of a listed block does to the list of entries what the model of the list says. -/
theorem Held.view_keepaliveExpired (held : Held t) (listed : p ∈ t.preferredParentList) :
    Held ((t.disarm p).keepaliveExpired p) ∧
      ((t.disarm p).keepaliveExpired p).view = keepaliveExpired t.view (t.block p) := by
  have erased := held.erase_block listed
  have view : ((t.disarm p).keepaliveExpired p).view = keepaliveExpired t.view (t.block p) := by
    rw [NeighbourTable.keepaliveExpired, keepaliveExpired]
    by_cases own : t.bestParentId = (t.block p).id
    · simp [NeighbourTable.view, NeighbourTable.disarm, own, erased]
    · simp [NeighbourTable.view, NeighbourTable.disarm, own, erased]
  have parts : ((t.disarm p).keepaliveExpired p).mem = free t.mem p ∧
      ((t.disarm p).keepaliveExpired p).preferredParentList = t.preferredParentList.erase p ∧
      ((t.disarm p).keepaliveExpired p).keepalive = Function.update t.keepalive p false := by
    rw [NeighbourTable.keepaliveExpired]
    split <;> exact ⟨rfl, rfl, rfl⟩
  obtain ⟨mem, list, keepalive⟩ := parts
  refine ⟨⟨?_, fun q => ?_, ?_⟩, view⟩
  · rw [mem, list]
    exact held.owned.remove p
  · rw [list, keepalive, held.owned.nodup.mem_erase_iff]
    by_cases own : q = p
    · simp [own]
    · simp [own, held.armed]
  · rw [view]
    exact keepaliveExpired_nodup held.ids _

/-! ### Runs -/

/-- Beacons come from nodes, and no node has the null address. -/
def FromNode (_ : NeighbourTable) : TableEvent → Prop
  | .beacon sender _ _ => sender ≠ linkaddrNull
  | .expire _ => True

/-- The same for the list of entries. -/
def HeardFromNode (_ : ParentState) : NeighbourEvent → Prop
  | .beacon sender _ _ => sender ≠ linkaddrNull
  | .expire _ => True

/-- One step of the blocks is one step of the list of entries. -/
theorem Held.next (held : Held t) {event : TableEvent} (stepped : t.next me event = some t') :
    Held t' ∧ t.view.next me (event.view t) = some t'.view := by
  cases event with
  | beacon sender received lastRssi =>
      obtain ⟨range, same⟩ := Option.ite_none_right_eq_some.mp stepped
      cases same
      obtain ⟨held', view⟩ := held.view_registerParent me sender received lastRssi
      refine ⟨held', ?_⟩
      rw [view]
      exact if_pos range
  | expire p =>
      obtain ⟨armed, same⟩ := Option.ite_none_right_eq_some.mp stepped
      cases same
      have listed := (held.armed p).mp armed
      obtain ⟨held', view⟩ := held.view_keepaliveExpired listed
      refine ⟨held', ?_⟩
      rw [view]
      exact if_pos (List.mem_map_of_mem listed)

variable {trace : List (NeighbourTable × TableEvent)}

/-- A run of the blocks is a run of the list of entries. -/
theorem NeighbourTable.simulates
    (run : Run (NeighbourTable.next me) FromNode (NeighbourTable.boot me) trace t) :
    Held t ∧ Run (ParentState.next me) HeardFromNode (selectPreferedParent me)
      (trace.map fun e => (e.1.view, e.2.view e.1)) t.view := by
  apply Run.simulate NeighbourTable.view (fun t event => event.view t) (Held.boot me) ?_ run
  intro t event t' held known stepped
  obtain ⟨held', stepped'⟩ := held.next stepped
  refine ⟨held', ?_, stepped'⟩
  cases event with
  | beacon sender received lastRssi => exact known
  | expire p => trivial

/-- What the list of entries and the elected parent maintain: entries of distinct nodes, a listed parent
    with an eligible sum or none, and no parent at node 1. -/
structure ParentSound (me : LinkAddr) (state : ParentState) : Prop where
  ids : IdsNodup state.preferredParentList
  known : ∀ q ∈ state.preferredParentList, q.id ≠ linkaddrNull
  listed : me.u8_0 ≠ 1 → Listed state
  root : me.u8_0 = 1 → state.bestParentId = linkaddrNull ∧ state.myPathRssi = 0

theorem ParentSound.boot (me : LinkAddr) : ParentSound me (selectPreferedParent me) where
  ids := List.nodup_nil
  known _ member := by cases member
  listed notRoot := .inl ⟨rfl, if_neg notRoot⟩
  root isRoot := ⟨rfl, if_pos isRoot⟩

theorem Registered.rootPath {state state' : ParentState}
    (h : Registered me state sender rssiP rssiA state') (isRoot : me.u8_0 = 1) :
    state'.myPathRssi = state.myPathRssi := by
  cases h with
  | refused _ => rfl
  | root _ _ => rfl
  | nobody _ notRoot _ => exact absurd isRoot notRoot
  | elected _ notRoot _ => exact absurd isRoot notRoot

theorem ParentSound.next {state state' : ParentState} (sound : ParentSound me state)
    {event : NeighbourEvent} (known : HeardFromNode state event)
    (stepped : state.next me event = some state') : ParentSound me state' := by
  cases event with
  | beacon sender received lastRssi =>
      obtain ⟨-, same⟩ := Option.ite_none_right_eq_some.mp stepped
      cases same
      have registered := registerParent_cases me state sender received lastRssi
      refine ⟨registered.nodup sound.ids, fun q member => ?_, fun notRoot => ?_, fun isRoot => ?_⟩
      · rcases registered.mem sound.ids member with rfl | old
        · exact known
        · exact sound.known q old
      · exact registered.listed sound.ids (sound.listed notRoot)
      · rw [registered.atRoot isRoot, registered.rootPath isRoot]
        exact sound.root isRoot
  | expire p =>
      obtain ⟨listed, same⟩ := Option.ite_none_right_eq_some.mp stepped
      cases same
      refine ⟨keepaliveExpired_nodup sound.ids p, fun q member => ?_, fun notRoot => ?_,
        fun isRoot => ?_⟩
      · exact sound.known q ((mem_keepaliveExpired sound.ids listed).mp member).1
      · exact keepaliveExpired_listed sound.ids listed (sound.listed notRoot)
      · -- Node 1 has no parent, and no entry has the null address.
        have other : state.bestParentId ≠ p.id := by
          rw [(sound.root isRoot).1]
          exact (sound.known p listed).symm
        obtain ⟨best, path⟩ := keepaliveExpired_other other
        rw [best, path]
        exact sound.root isRoot

/-- In every run of a node at most 10 neighbours are listed, all different; the blocks in use and the
    timers that are set are those of the listed entries, so that a timer that fires frees a listed entry;
    a node other than 1 has a parent exactly if its path sum lies between -1000 and 0, and then the parent
    is listed; and node 1 has none. -/
theorem neighbourTable_invariant
    (run : Run (NeighbourTable.next me) FromNode (NeighbourTable.boot me) trace t) :
    (t.preferredParentList.length ≤ 10 ∧
      (t.preferredParentList.map fun p => (t.block p).id).Nodup) ∧
    ((∀ p, t.mem p = true ↔ p ∈ t.preferredParentList) ∧
      (∀ p, t.keepalive p = true ↔ p ∈ t.preferredParentList) ∧
      ∀ p t', t.next me (.expire p) = some t' → p ∈ t.preferredParentList) ∧
    (me.u8_0 ≠ 1 →
      (t.bestParentId ≠ linkaddrNull ↔ -1000 < t.myPathRssi ∧ t.myPathRssi < 0) ∧
      (¬ (-1000 < t.myPathRssi ∧ t.myPathRssi < 0) → t.myPathRssi = -1000) ∧
      (t.bestParentId ≠ linkaddrNull →
        ∃ p ∈ t.preferredParentList, (t.block p).id = t.bestParentId)) ∧
    (me.u8_0 = 1 → t.bestParentId = linkaddrNull ∧ t.myPathRssi = 0) := by
  obtain ⟨held, listRun⟩ := NeighbourTable.simulates run
  have sound : ParentSound me t.view :=
    listRun.invariant (ParentSound.boot me) fun _ _ _ sound known stepped => sound.next known stepped
  refine ⟨⟨held.owned.length_le, ?_⟩, ⟨held.owned.used, held.armed, fun p t' fired => ?_⟩,
    fun notRoot => ?_, sound.root⟩
  · have ids := held.ids
    rwa [IdsNodup, NeighbourTable.view, List.map_map] at ids
  · exact (held.armed p).mp (Option.ite_none_right_eq_some.mp fired).1
  · rcases sound.listed notRoot with ⟨none, path⟩ | ⟨eligible, q, member, parent⟩
    · have floor : t.myPathRssi = -1000 := path
      have null : t.bestParentId = linkaddrNull := none
      refine ⟨⟨fun some => absurd null some, fun range => ?_⟩, fun _ => floor, fun some => absurd null some⟩
      exact absurd range.1 (by rw [floor]; decide)
    · have range : -1000 < t.myPathRssi ∧ t.myPathRssi < 0 := eligible
      have some : t.bestParentId ≠ linkaddrNull := by
        have known := sound.known q member
        rwa [parent] at known
      obtain ⟨p, listed, rfl⟩ := List.mem_map.mp member
      exact ⟨iff_of_true some range, fun outside => absurd range outside, fun _ => ⟨p, listed, parent⟩⟩

/-- Node 3 hears nodes 1 and 2, and then the entry of node 1 expires. -/
def heardAndExpired : List TableEvent :=
  [.beacon ⟨1, 0⟩ ⟨⟨1, 0⟩, 0⟩ (-50), .beacon ⟨2, 0⟩ ⟨⟨2, 0⟩, -40⟩ (-30), .expire ⟨0, by decide⟩]

/-- The block of node 2 is the one that is left. -/
theorem neighbourTable_invariant_expiry :
    ∃ t, execute (NeighbourTable.next ⟨3, 0⟩) (NeighbourTable.boot ⟨3, 0⟩) heardAndExpired = some t ∧
      t.preferredParentList = [⟨1, by decide⟩] ∧ t.bestParentId = linkaddrNull ∧
      t.mem ⟨1, by decide⟩ = true ∧ t.mem ⟨0, by decide⟩ ≠ true := by
  have ends : ((execute (NeighbourTable.next ⟨3, 0⟩) (NeighbourTable.boot ⟨3, 0⟩) heardAndExpired).map
      fun t => (t.preferredParentList, t.bestParentId)) = some ([⟨1, by decide⟩], linkaddrNull) := by
    decide +kernel
  obtain ⟨t, executed, facts⟩ := Option.map_eq_some_iff.mp ends
  obtain ⟨list, none⟩ := Prod.mk.inj facts
  have run := Run.of_execute FromNode (by simp [FromNode, heardAndExpired, linkaddrNull]) executed
  have used := (neighbourTable_invariant run).2.1.1
  refine ⟨t, executed, list, none, ?_, ?_⟩
  · rw [used, list]
    decide
  · rw [ne_eq, used, list]
    decide

end TreeRssi
