/-
Module: TreeRssi.Proofs.BeaconSteps
Layer: Proofs
Purpose: One step of the neighbour plane seen from one node, and the two facts about the elected parent
  that every later proof rests on. `Listed` holds in every run: a node without a parent announces
  -1000, any other has an eligible sum and lists its parent. `Chosen` says more, that the sum is the
  one stored for the parent, and survives a beacon that does not worsen the parent's own entry.
Imports: TreeRssi.Core.BeaconNet, TreeRssi.Proofs.Election
Trusted boundary: none
Main exports: NodeStep, step_node, Listed, Chosen, Registered.listed, Registered.chosen,
  run_nodup, run_listed, run_root, run_listed_heard, run_bestParent_mem
Open obligations: none
-/
import TreeRssi.Core.BeaconNet
import TreeRssi.Proofs.Election

namespace TreeRssi

open LabelledRun

/-- What a step of the network does at one node. -/
inductive NodeStep (nodes : Finset LinkAddr) (net : BeaconNet) (node : LinkAddr) :
    BeaconAction → ParentState → Prop where
  | idle (action : BeaconAction) : NodeStep nodes net node action (net.parents node)
  | heard {sender : LinkAddr} {heard : List (LinkAddr × Int)} {rssi : Int}
      (member : (node, rssi) ∈ heard) (canHear : net.CanHear nodes sender heard)
      (live : net.Live nodes sender) :
      NodeStep nodes net node (.beacon sender heard)
        (registerParent node (net.parents node) sender
          (broadcastRssi sender (net.parents sender)) rssi)
  | expired {p : PreferredParent} (listed : p ∈ (net.parents node).preferredParentList) :
      NodeStep nodes net node (.expire node p.id) (keepaliveExpired (net.parents node) p)

theorem mem_of_lookup {node : LinkAddr} {rssi : Int} {heard : List (LinkAddr × Int)}
    (h : heard.lookup node = some rssi) : (node, rssi) ∈ heard := by
  obtain ⟨front, back, rfl, -⟩ := List.lookup_eq_some_iff.mp h
  simp

/-- Every step of the network is, at every node, one of the three. -/
theorem step_node {nodes : Finset LinkAddr} {net net' : BeaconNet} {action : BeaconAction}
    (h : BeaconNet.step nodes net action = some net') (node : LinkAddr) :
    NodeStep nodes net node action (net'.parents node) := by
  cases action with
  | beacon sender heard =>
      simp only [BeaconNet.step, Option.ite_none_right_eq_some, Option.some.injEq] at h
      obtain ⟨⟨live, canHear⟩, rfl⟩ := h
      cases found : heard.lookup node with
      | none => simpa [BeaconNet.broadcast, found] using NodeStep.idle _
      | some rssi =>
          simpa [BeaconNet.broadcast, found] using
            NodeStep.heard (mem_of_lookup found) canHear live
  | expire other neighbour =>
      simp only [BeaconNet.step, Option.ite_none_right_eq_some, Option.map_eq_some_iff] at h
      obtain ⟨-, p, found, rfl⟩ := h
      have listed := List.mem_of_find?_eq_some found
      have same : p.id = neighbour := by simpa using List.find?_some found
      subst same
      by_cases here : node = other
      · subst here
        simpa [BeaconNet.setParents] using NodeStep.expired listed
      · simpa [BeaconNet.setParents, here] using NodeStep.idle _
  | silence other =>
      simp only [BeaconNet.step, Option.ite_none_right_eq_some, Option.some.injEq] at h
      obtain ⟨-, rfl⟩ := h
      exact .idle _

/-! ### What the elected parent is -/

/-- A node without a parent announces -1000; any other has an eligible sum and lists its parent. -/
def Listed (state : ParentState) : Prop :=
  (state.bestParentId = linkaddrNull ∧ state.myPathRssi = noPath) ∨
  (Eligible state.myPathRssi ∧ ∃ q ∈ state.preferredParentList, q.id = state.bestParentId)

/-- As `Listed`, and the sum of a node with a parent is the one stored for the parent. -/
def Chosen (state : ParentState) : Prop :=
  (state.bestParentId = linkaddrNull ∧ state.myPathRssi = noPath) ∨
  (Eligible state.myPathRssi ∧
    ∃ q ∈ state.preferredParentList, q.id = state.bestParentId ∧ q.rssiP = state.myPathRssi)

theorem Chosen.listed {state : ParentState} (h : Chosen state) : Listed state :=
  h.imp_right fun ⟨eligible, q, member, same, _⟩ => ⟨eligible, q, member, same⟩

theorem Listed.range {state : ParentState} (h : Listed state) :
    noPath ≤ state.myPathRssi ∧ state.myPathRssi < 0 := by
  rcases h with ⟨-, value⟩ | ⟨eligible, -⟩
  · rw [value]
    decide
  · exact ⟨Int.le_of_lt eligible.1, eligible.2⟩

/-- A node that has a parent has an eligible sum. -/
theorem Listed.eligible {state : ParentState} (h : Listed state)
    (parent : state.bestParentId ≠ linkaddrNull) : Eligible state.myPathRssi := by
  rcases h with ⟨none, -⟩ | ⟨eligible, -⟩
  · exact absurd none parent
  · exact eligible

/-- Storing a beacon keeps every neighbour of the list. -/
theorem storeEntry_keeps_id {sender : LinkAddr} {rssiP rssiA : Int}
    {list new : List PreferredParent} (nodup : IdsNodup list)
    (h : storeEntry sender rssiP rssiA list = some new) {q : PreferredParent} (member : q ∈ list) :
    ∃ q' ∈ new, q'.id = q.id := by
  by_cases same : q.id = sender
  · exact ⟨⟨sender, rssiP, rssiA⟩, (storeEntry_mem nodup h _).mpr (.inl rfl), same.symm⟩
  · exact ⟨q, (storeEntry_mem nodup h _).mpr (.inr ⟨member, same⟩), rfl⟩

variable {self sender : LinkAddr} {state state' : ParentState} {rssiP rssiA : Int}

/-- No beacon breaks `Listed`. -/
theorem Registered.listed (h : Registered self state sender rssiP rssiA state')
    (nodup : IdsNodup state.preferredParentList) (listed : Listed state) : Listed state' := by
  have kept : ∀ {list}, storeEntry sender rssiP rssiA state.preferredParentList = some list →
      Listed { state with preferredParentList := list } := by
    intro list stored
    rcases listed with none | ⟨eligible, q, member, same⟩
    · exact .inl none
    · obtain ⟨q', member', same'⟩ := storeEntry_keeps_id nodup stored member
      exact .inr ⟨eligible, q', member', same'.trans same⟩
  cases h with
  | refused _ => exact listed
  | root stored _ => exact kept stored
  | nobody stored _ _ => exact kept stored
  | elected _ _ winner => exact .inr ⟨winner.eligible, _, winner.listed, rfl⟩

/-- A beacon that does not worsen the entry of the current parent keeps `Chosen` and does not lower
    the path sum. -/
theorem Registered.chosen (h : Registered self state sender rssiP rssiA state')
    (nodup : IdsNodup state.preferredParentList) (notRoot : self.u8_0 ≠ 1) (chosen : Chosen state)
    (negative : rssiP < 0)
    (noWorse : Eligible state.myPathRssi → state.bestParentId = sender → state.myPathRssi ≤ rssiP) :
    Chosen state' ∧ state.myPathRssi ≤ state'.myPathRssi := by
  -- After the store the parent's entry is still eligible and at least as good.
  have still : ∀ {list}, storeEntry sender rssiP rssiA state.preferredParentList = some list →
      (state.bestParentId = linkaddrNull ∧ state.myPathRssi = noPath) ∨
      ∃ q ∈ list, Eligible q.rssiP ∧ state.myPathRssi ≤ q.rssiP := by
    intro list stored
    rcases chosen with none | ⟨eligible, q, member, same, value⟩
    · exact .inl none
    · right
      by_cases own : q.id = sender
      · have better := noWorse eligible (same.symm.trans own)
        exact ⟨⟨sender, rssiP, rssiA⟩, (storeEntry_mem nodup stored _).mpr (.inl rfl),
          ⟨Int.lt_of_lt_of_le eligible.1 better, negative⟩, better⟩
      · exact ⟨q, (storeEntry_mem nodup stored _).mpr (.inr ⟨member, own⟩), by rwa [value],
          Int.le_of_eq value.symm⟩
  cases h with
  | refused _ => exact ⟨chosen, Int.le_refl _⟩
  | root _ isRoot => exact absurd isRoot notRoot
  | nobody stored _ nobody =>
      rcases still stored with none | ⟨q, member, eligible, -⟩
      · exact ⟨.inl none, Int.le_refl _⟩
      · exact absurd eligible (nobody q member)
  | @elected list w stored _ winner =>
      refine ⟨.inr ⟨winner.eligible, w, winner.listed, rfl, rfl⟩, ?_⟩
      change state.myPathRssi ≤ w.rssiP
      rcases still stored with ⟨-, value⟩ | ⟨q, member, eligible, better⟩
      · rw [value]
        exact Int.le_of_lt winner.eligible.1
      · exact Int.le_trans better (winner.greatest q member eligible)

theorem keepaliveExpired_listed {p : PreferredParent} (nodup : IdsNodup state.preferredParentList)
    (member : p ∈ state.preferredParentList) (listed : Listed state) :
    Listed (keepaliveExpired state p) := by
  by_cases own : state.bestParentId = p.id
  · exact .inl (by simp [keepaliveExpired, own])
  · have same := keepaliveExpired_other own
    rcases listed with none | ⟨eligible, q, listed, parent⟩
    · exact .inl (by rwa [same.1, same.2])
    · refine .inr ⟨by rwa [same.2], q, ?_, by rw [same.1, parent]⟩
      exact (mem_keepaliveExpired nodup member).mpr ⟨listed, fun other => own (parent.symm.trans other)⟩

/-- The expiry of an entry that is not the parent's keeps the parent's entry. -/
theorem keepaliveExpired_chosen {p : PreferredParent} (nodup : IdsNodup state.preferredParentList)
    (member : p ∈ state.preferredParentList) (other : state.bestParentId ≠ p.id)
    (chosen : Chosen state) : Chosen (keepaliveExpired state p) := by
  have same := keepaliveExpired_other other
  rcases chosen with none | ⟨eligible, q, listed, parent, value⟩
  · exact .inl (by rwa [same.1, same.2])
  · refine .inr ⟨by rwa [same.2], q, ?_, by rw [same.1, parent], by rw [same.2, value]⟩
    exact (mem_keepaliveExpired nodup member).mpr ⟨listed, fun own => other (parent.symm.trans own)⟩

/-! ### Facts of every run -/

variable {nodes : Finset LinkAddr} {ok : BeaconNet → BeaconAction → Prop} {net : BeaconNet}
  {trace : List (BeaconNet × BeaconAction)}

theorem NodeStep.nodup {node : LinkAddr} {action : BeaconAction} {state : ParentState}
    (h : NodeStep nodes net node action state)
    (nodup : IdsNodup (net.parents node).preferredParentList) :
    IdsNodup state.preferredParentList := by
  cases h with
  | idle => exact nodup
  | heard _ _ _ => exact (registerParent_cases _ _ _ _ _).nodup nodup
  | expired _ => exact keepaliveExpired_nodup nodup _

theorem NodeStep.listed {node : LinkAddr} {action : BeaconAction} {state : ParentState}
    (h : NodeStep nodes net node action state) (nodup : IdsNodup (net.parents node).preferredParentList)
    (listed : Listed (net.parents node)) : Listed state := by
  cases h with
  | idle => exact listed
  | heard _ _ _ => exact (registerParent_cases _ _ _ _ _).listed nodup listed
  | expired member => exact keepaliveExpired_listed nodup member listed

/-- In every run each node lists a neighbour at most once. -/
theorem run_nodup (run : Run (BeaconNet.step nodes) ok BeaconNet.cold trace net) (node : LinkAddr) :
    IdsNodup (net.parents node).preferredParentList := by
  apply run.invariant (I := fun net => IdsNodup (net.parents node).preferredParentList)
  · exact List.nodup_nil
  · intro s action s' nodup _ stepped
    exact (step_node stepped node).nodup nodup

/-- In every run each node but the root either has no parent or lists it. -/
theorem run_listed (run : Run (BeaconNet.step nodes) ok BeaconNet.cold trace net) {node : LinkAddr}
    (notRoot : node.u8_0 ≠ 1) : Listed (net.parents node) := by
  refine (run.invariant (I := fun net => IdsNodup (net.parents node).preferredParentList ∧
    Listed (net.parents node)) ?_ ?_).2
  · exact ⟨List.nodup_nil, .inl ⟨rfl, if_neg notRoot⟩⟩
  · intro s action s' ⟨nodup, listed⟩ _ stepped
    exact ⟨(step_node stepped node).nodup nodup, (step_node stepped node).listed nodup listed⟩

/-- In every run the root has no parent. -/
theorem run_root (run : Run (BeaconNet.step nodes) ok BeaconNet.cold trace net) {node : LinkAddr}
    (isRoot : node.u8_0 = 1) : (net.parents node).bestParentId = linkaddrNull := by
  refine run.invariant (I := fun net => (net.parents node).bestParentId = linkaddrNull) rfl ?_
  intro s action s' none _ stepped
  have atNode := step_node stepped node
  generalize s'.parents node = state at atNode
  cases atNode with
  | idle => exact none
  | @heard sender heard rssi =>
      have registered := registerParent_cases node (s.parents node) sender
        (broadcastRssi sender (s.parents sender)) rssi
      generalize registerParent node (s.parents node) sender _ rssi = state at registered
      cases registered with
      | refused | root => exact none
      | nobody _ notRoot | elected _ notRoot => exact absurd isRoot notRoot
  | @expired p =>
      by_cases own : (s.parents node).bestParentId = p.id
      · simp [keepaliveExpired, own]
      · rw [(keepaliveExpired_other own).1]
        exact none

/-- In every run a node lists only what it has heard. -/
theorem run_listed_heard {P : LinkAddr → LinkAddr → Prop}
    (hears : ∀ net sender heard, ok net (.beacon sender heard) → sender ∈ nodes →
      ∀ e ∈ heard, P sender e.1)
    (run : Run (BeaconNet.step nodes) ok BeaconNet.cold trace net) (node : LinkAddr) :
    ∀ q ∈ (net.parents node).preferredParentList, P q.id node := by
  refine (run.invariant (I := fun net => IdsNodup (net.parents node).preferredParentList ∧
    ∀ q ∈ (net.parents node).preferredParentList, P q.id node) ?_ ?_).2
  · exact ⟨List.nodup_nil, by simp [BeaconNet.cold, selectPreferedParent]⟩
  · intro s action s' held allowed stepped
    obtain ⟨nodup, known⟩ := held
    have atNode := step_node stepped node
    refine ⟨atNode.nodup nodup, ?_⟩
    generalize s'.parents node = state at atNode
    cases atNode with
    | idle => exact known
    | heard member _ live =>
        intro q listed
        rcases (registerParent_cases _ _ _ _ _).mem nodup listed with rfl | old
        · exact hears _ _ _ allowed live.1 _ member
        · exact known q old
    | expired listed =>
        intro q member
        exact known q ((mem_keepaliveExpired nodup listed).mp member).1

/-- In every run a best parent is a node of the network. -/
theorem run_bestParent_mem (run : Run (BeaconNet.step nodes) ok BeaconNet.cold trace net)
    {node : LinkAddr} (proper : (net.parents node).bestParentId ≠ linkaddrNull) :
    (net.parents node).bestParentId ∈ nodes := by
  by_cases isRoot : node.u8_0 = 1
  · exact absurd (run_root run isRoot) proper
  · rcases run_listed run isRoot with ⟨none, -⟩ | ⟨-, q, listed, same⟩
    · exact absurd none proper
    · rw [← same]
      exact run_listed_heard (P := fun sender _ => sender ∈ nodes)
        (fun _ _ _ _ member _ _ => member) run node q listed

end TreeRssi
