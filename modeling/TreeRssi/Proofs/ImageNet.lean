/-
Module: TreeRssi.Proofs.ImageNet
Layer: Proofs
Purpose: The program with its memory and the models on lists are two views of one system. Every step of the
  memory stays inside its arrays and is the same step of the lists, and every step of the lists is one of
  the memory. So each run of either is a run of the other, and what is proved of the lists holds of the
  memory.
Imports: TreeRssi.Core.ImageNet, TreeRssi.Proofs.NodeImage, TreeRssi.Proofs.SystemRun
Trusted boundary: none
Main exports: ImageNet.Mirrors, ImageNet.Mirrors.step, ImageNet.Mirrors.next, ImageNet.Mirrors.realised,
  SameStep, image_refines, image_realises
Open obligations: none
-/
import TreeRssi.Core.ImageNet
import TreeRssi.Proofs.NodeImage
import TreeRssi.Proofs.SystemRun

namespace TreeRssi

open CText LabelledRun

/-- The memory of every node is that of the lists, and the same packets are in the air; none of them is
    longer than a `uint16_t` can tell. -/
structure ImageNet.Mirrors (s : ImageNet) (t : System) : Prop where
  node : ∀ i, (s.node i).Mirrors (t.net.beacons.parents i) (t.net.control i) (t.data i)
  silent : s.silent = t.net.beacons.silent
  controlAir : s.controlAir = t.net.air
  air : s.air = t.air
  controlShort : ∀ frame ∈ s.controlAir, frame.data.length < 65536
  short : ∀ frame ∈ s.air, frame.data.length < 65536

/-- The timer that fires is set; any other step may be tried. -/
def ImageAction.Armed (s : ImageNet) : ImageAction → Prop
  | .expire node p => (s.node node).neighbours.keepalive p = true
  | _ => True

/-- The control packets that are sent are short. -/
theorem NodeImage.Mirrors.sendRoutingTable_short {image : NodeImage} {parents : ParentState}
    {control : ControlState} {p : PacketNode} (mirrors : image.Mirrors parents control p)
    (packetbufSize : Nat) (me best : LinkAddr) :
    ∀ frame ∈ (TreeRssi.sendRoutingTable packetbufSize me best control).2.toList,
      frame.data.length < 65536 := by
  intro frame member
  let memory : SendMemory :=
    ⟨image.memory.routingTree, image.memory.treeNNodes, image.serialBuf, image.sendBuf⟩
  have fits : FitsCells memory.routingTree memory.treeNNodes := mirrors.sound.table
  obtain ⟨-, inside⟩ := serialiseAt_some fits me mirrors.memory.table mirrors.serialBuf
  rw [TreeRssi.sendRoutingTable] at member
  by_cases orphan : best = linkaddrNull
  · simp [orphan] at member
  · by_cases nothing : (control.serialise me).pos = 0
    · simp [orphan, nothing] at member
    · simp only [if_neg orphan, if_neg nothing, Option.mem_toList] at member
      cases member
      have cut := List.length_take_le' packetbufSize
        (uControl :: bytes (control.serialise me).buf ((control.serialise me).pos + 1))
      simp only [bytes, List.length_cons, List.length_map, List.length_range] at cut
      rw [treeSerialBuf] at inside
      exact Nat.lt_of_le_of_lt cut (by omega)

namespace ImageNet.Mirrors

variable {nodes : Finset LinkAddr} {packetbufSize : Nat} {s : ImageNet} {t t' : System} {i : LinkAddr}
  {image : NodeImage}

theorem beacons (mirrors : s.Mirrors t) : s.beacons = t.net.beacons := by
  have parents : (fun i => (s.node i).neighbours.view) = t.net.beacons.parents :=
    funext fun i => (mirrors.node i).neighbours
  rw [ImageNet.beacons, parents, mirrors.silent]

/-- One node changes in both, the others in neither. -/
theorem setNode (mirrors : s.Mirrors t)
    (here : image.Mirrors (t'.net.beacons.parents i) (t'.net.control i) (t'.data i))
    (away : ∀ j ≠ i, t'.net.beacons.parents j = t.net.beacons.parents j ∧
      t'.net.control j = t.net.control j ∧ t'.data j = t.data j) (j : LinkAddr) :
    ((s.setNode i image).node j).Mirrors (t'.net.beacons.parents j) (t'.net.control j) (t'.data j) := by
  by_cases own : j = i
  · subst own
    rw [ImageNet.setNode_self]
    exact here
  · obtain ⟨parents, control, data⟩ := away j own
    rw [ImageNet.setNode_other own, parents, control, data]
    exact mirrors.node j

/-- A beacon is the same for the blocks and for the lists. -/
theorem broadcast (mirrors : s.Mirrors t) (sender : LinkAddr) (heard : List (LinkAddr × Int)) :
    (s.broadcast sender heard).Mirrors
      { t with net := { t.net with beacons := t.net.beacons.broadcast sender heard } } := by
  refine ⟨fun i => ?_, mirrors.silent, mirrors.controlAir, mirrors.air, mirrors.controlShort, mirrors.short⟩
  have old := mirrors.node i
  simp only [ImageNet.broadcast, BeaconNet.broadcast]
  cases listens : heard.lookup i with
  | none => exact old
  | some rssi =>
      obtain ⟨held, view⟩ := old.held.view_registerParent i sender
        (broadcastRssi sender (s.node sender).neighbours.view) rssi
      refine ⟨held, ?_, old.sound, old.memory, old.serialBuf, old.packets⟩
      rw [view, old.neighbours, (mirrors.node sender).neighbours]

/-- The timer in a listed block fires for the entry that is in it. -/
theorem expire (mirrors : s.Mirrors t) {p : ParentPtr} (armed : (s.node i).neighbours.keepalive p = true) :
    ∃ entry, (t.net.beacons.parents i).preferredParentList.find?
        (·.id = ((s.node i).neighbours.block p).id) = some entry ∧
      (s.expire i p).Mirrors { t with net := { t.net with
        beacons := t.net.beacons.setParents i (keepaliveExpired (t.net.beacons.parents i) entry) } } := by
  have old := mirrors.node i
  have listed := (old.held.armed p).mp armed
  obtain ⟨held, view⟩ := old.held.view_keepaliveExpired listed
  refine ⟨(s.node i).neighbours.block p, ?_, ?_, mirrors.silent, mirrors.controlAir, mirrors.air,
    mirrors.controlShort, mirrors.short⟩
  · have member : (s.node i).neighbours.block p ∈ (t.net.beacons.parents i).preferredParentList := by
      rw [← old.neighbours]
      exact List.mem_map_of_mem listed
    have ids := old.held.ids
    rw [old.neighbours] at ids
    obtain ⟨q, found⟩ := Option.isSome_iff_exists.mp
      (List.find?_isSome.mpr ⟨_, member, by simp⟩ : (List.find?
        (·.id = ((s.node i).neighbours.block p).id) (t.net.beacons.parents i).preferredParentList).isSome)
    have same : q.id = ((s.node i).neighbours.block p).id := by simpa using List.find?_some found
    rw [found, ids.eq_of_id (List.mem_of_find?_eq_some found) member same]
  · apply mirrors.setNode
    · refine ⟨held, ?_, old.sound, old.memory, old.serialBuf, old.packets⟩
      rw [view, old.neighbours]
      exact (if_pos rfl).symm
    · exact fun j other => ⟨if_neg other, rfl, rfl⟩

/-! ### One step -/

/-- A step that cannot occur in the memory cannot occur in the lists. -/
theorem guarded {c : Prop} [Decidable c] {x : Option (Option ImageNet)} {y : Option System}
    (occurs : c → ∃ r, x = some r ∧ Option.Rel Mirrors r y) (otherwise : ¬ c → y = none) :
    ∃ r, (if c then x else some none) = some r ∧ Option.Rel Mirrors r y := by
  by_cases here : c
  · rw [if_pos here]
    exact occurs here
  · rw [if_neg here, otherwise here]
    exact ⟨none, rfl, .none⟩

/-- `recv_uc` at the receiver of a packet in the air. -/
theorem received (mirrors : s.Mirrors t) {frame : Frame} (short : frame.data.length < 65536) (stack : Memory)
    (posted : Bool) :
    ∃ s', s.received frame stack posted = some s' ∧
      s'.silent = s.silent ∧ s'.controlAir = s.controlAir ∧ s'.air = s.air ∧
      ∀ j, (s'.node j).Mirrors (t.net.beacons.parents j)
        ((t.net.setControl frame.dst ((t.net.control frame.dst).receive frame.data posted)).control j)
        ((t.setData frame.dst (t.received frame posted)).data j) := by
  obtain ⟨image, done, mirrors'⟩ := (mirrors.node frame.dst).recvUc short frame.dst frame.src stack posted
  refine ⟨s.setNode frame.dst image, by rw [ImageNet.received, done, Option.map_some], rfl, rfl, rfl,
    fun j => ?_⟩
  by_cases own : j = frame.dst
  · subst own
    rw [ImageNet.setNode_self, Net.setControl_self, System.setData_self]
    exact mirrors'
  · rw [ImageNet.setNode_other own, Net.setControl_other own, System.setData_other own]
    exact mirrors.node j

/-- A beacon is heard by the same nodes. -/
theorem step_beacon (mirrors : s.Mirrors t) (sender : LinkAddr) (heard : List (LinkAddr × Int)) :
    ∃ r, s.step nodes packetbufSize (.beacon sender heard) = some r ∧
      Option.Rel Mirrors r (t.step nodes packetbufSize (.net (.radio (.beacon sender heard)))) := by
  simp only [ImageNet.step, System.step, Net.step, BeaconNet.step, mirrors.beacons]
  refine guarded (fun occurs => ?_) fun absent => by simp only [if_neg absent, Option.map_none]
  simp only [if_pos occurs, Option.map_some]
  exact ⟨_, rfl, .some (mirrors.broadcast sender heard)⟩

/-- Only the timers of listed blocks are set; the timer of any other block would fire for nobody. -/
theorem step_expire (mirrors : s.Mirrors t) {p : ParentPtr}
    (armed : (s.node i).neighbours.keepalive p = true) :
    ∃ r, s.step nodes packetbufSize (.expire i p) = some r ∧
      Option.Rel Mirrors r (t.step nodes packetbufSize
        (.net (.radio (.expire i ((s.node i).neighbours.block p).id)))) := by
  obtain ⟨entry, found, mirrors'⟩ := mirrors.expire armed
  simp only [ImageNet.step, System.step, Net.step, BeaconNet.step, mirrors.beacons, armed, and_true, found]
  refine guarded (fun live => ?_) fun absent => by simp only [if_neg absent, Option.map_none]
  simp only [if_pos live, Option.map_some]
  exact ⟨_, rfl, .some mirrors'⟩

theorem step_silence (mirrors : s.Mirrors t) (i : LinkAddr) :
    ∃ r, s.step nodes packetbufSize (.silence i) = some r ∧
      Option.Rel Mirrors r (t.step nodes packetbufSize (.net (.radio (.silence i)))) := by
  simp only [ImageNet.step, System.step, Net.step, BeaconNet.step, mirrors.beacons]
  refine guarded (fun live => ?_) fun absent => by simp only [if_neg absent, Option.map_none]
  simp only [if_pos live, Option.map_some]
  exact ⟨_, rfl, .some ⟨mirrors.node, congrArg (i :: ·) mirrors.silent, mirrors.controlAir, mirrors.air,
    mirrors.controlShort, mirrors.short⟩⟩

theorem step_sendControl (mirrors : s.Mirrors t) (i : LinkAddr) :
    ∃ r, s.step nodes packetbufSize (.sendControl i) = some r ∧
      Option.Rel Mirrors r (t.step nodes packetbufSize (.net (.sendControl i))) := by
  simp only [ImageNet.step, System.step, Net.step, mirrors.beacons]
  refine guarded (fun live => ?_) fun absent => by simp only [if_neg absent, Option.map_none]
  obtain ⟨image, sent, mirrors'⟩ := (mirrors.node i).sendRoutingTable packetbufSize i
  simp only [if_pos live, sent, Option.map_some]
  refine ⟨_, rfl, .some ⟨?_, mirrors.silent, ?_, mirrors.air, ?_, mirrors.short⟩⟩
  · apply mirrors.setNode
    · exact (Net.setControl_self t.net i _).symm ▸ mirrors'
    · exact fun j other => ⟨rfl, Net.setControl_other other, rfl⟩
  · exact congrArg (_ ++ ·) mirrors.controlAir
  · intro frame member
    exact (List.mem_append.mp member).elim
      ((mirrors.node i).sendRoutingTable_short packetbufSize i _ frame) (mirrors.controlShort frame)

theorem step_receiveControl (mirrors : s.Mirrors t) (frame : Frame) (stack : Memory) (posted : Bool) :
    ∃ r, s.step nodes packetbufSize (.receiveControl frame stack posted) = some r ∧
      Option.Rel Mirrors r (t.step nodes packetbufSize (.net (.receive frame posted))) := by
  simp only [ImageNet.step, System.step, Net.step, mirrors.beacons, mirrors.controlAir]
  refine guarded (fun occurs => ?_) fun absent => by simp only [if_neg absent, Option.map_none]
  have short : frame.data.length < 65536 := mirrors.controlShort frame (mirrors.controlAir ▸ occurs.1)
  obtain ⟨s', done, silent, controlAir, air, node⟩ := mirrors.received short stack posted
  simp only [if_pos occurs, done, Option.map_some]
  refine ⟨_, rfl, .some ⟨node, silent.trans mirrors.silent, rfl, air.trans mirrors.air, ?_, ?_⟩⟩
  · intro other member
    exact mirrors.controlShort other (mirrors.controlAir ▸ List.mem_of_mem_erase member)
  · intro other member
    exact mirrors.short other (air ▸ member)

theorem step_loseControl (mirrors : s.Mirrors t) (frame : Frame) :
    ∃ r, s.step nodes packetbufSize (.loseControl frame) = some r ∧
      Option.Rel Mirrors r (t.step nodes packetbufSize (.net (.lose frame))) := by
  simp only [ImageNet.step, System.step, Net.step, mirrors.controlAir]
  refine guarded (fun flying => ?_) fun absent => by simp only [if_neg absent, Option.map_none]
  simp only [if_pos flying, Option.map_some]
  refine ⟨_, rfl, .some ⟨mirrors.node, mirrors.silent, rfl, mirrors.air, ?_, mirrors.short⟩⟩
  intro other member
  exact mirrors.controlShort other (mirrors.controlAir ▸ List.mem_of_mem_erase member)

theorem step_update (mirrors : s.Mirrors t) (i : LinkAddr) :
    ∃ r, s.step nodes packetbufSize (.update i) = some r ∧
      Option.Rel Mirrors r (t.step nodes packetbufSize (.net (.deliver i))) := by
  simp only [ImageNet.step, System.step, Net.step, mirrors.beacons]
  refine guarded (fun live => ?_) fun absent => by simp only [if_neg absent, Option.map_none]
  obtain ⟨r, updated, same⟩ := (mirrors.node i).updateRoutingTable i
  simp only [if_pos live, updated, Option.map_some]
  refine ⟨_, rfl, ?_⟩
  generalize (t.net.control i).deliver i = r' at same
  cases same with
  | none => exact .none
  | some mirrors' =>
      refine .some ⟨?_, mirrors.silent, mirrors.controlAir, mirrors.air, mirrors.controlShort,
        mirrors.short⟩
      apply mirrors.setNode
      · exact (Net.setControl_self t.net i _).symm ▸ mirrors'
      · exact fun j other => ⟨rfl, Net.setControl_other other, rfl⟩

theorem step_generate (mirrors : s.Mirrors t) (i : LinkAddr) (posted : Bool) :
    ∃ r, s.step nodes packetbufSize (.generate i posted) = some r ∧
      Option.Rel Mirrors r (t.step nodes packetbufSize (.generate i posted)) := by
  simp only [ImageNet.step, System.step, mirrors.beacons]
  refine guarded (fun live => ?_) fun absent => if_neg absent
  obtain ⟨image, generated, mirrors'⟩ := (mirrors.node i).generatePktDst i posted
  simp only [if_pos live, generated, Option.map_some]
  refine ⟨_, rfl, .some ⟨?_, mirrors.silent, mirrors.controlAir, mirrors.air, mirrors.controlShort,
    mirrors.short⟩⟩
  apply mirrors.setNode
  · exact (System.setData_self t i _).symm ▸ mirrors'
  · exact fun j other => ⟨rfl, rfl, System.setData_other other⟩

theorem step_receive (mirrors : s.Mirrors t) (frame : Frame) (stack : Memory) (posted : Bool) :
    ∃ r, s.step nodes packetbufSize (.receive frame stack posted) = some r ∧
      Option.Rel Mirrors r (t.step nodes packetbufSize (.receive frame posted)) := by
  simp only [ImageNet.step, System.step, mirrors.beacons, mirrors.air]
  refine guarded (fun occurs => ?_) fun absent => if_neg absent
  have short : frame.data.length < 65536 := mirrors.short frame (mirrors.air ▸ occurs.1)
  obtain ⟨s', done, silent, controlAir, air, node⟩ := mirrors.received short stack posted
  simp only [if_pos occurs, done, Option.map_some]
  refine ⟨_, rfl, .some ⟨node, silent.trans mirrors.silent, controlAir.trans mirrors.controlAir, rfl,
    ?_, ?_⟩⟩
  · intro other member
    exact mirrors.controlShort other (controlAir ▸ member)
  · intro other member
    exact mirrors.short other (mirrors.air ▸ List.mem_of_mem_erase member)

theorem step_lose (mirrors : s.Mirrors t) (frame : Frame) :
    ∃ r, s.step nodes packetbufSize (.lose frame) = some r ∧
      Option.Rel Mirrors r (t.step nodes packetbufSize (.lose frame)) := by
  simp only [ImageNet.step, System.step, mirrors.air]
  refine guarded (fun flying => ?_) fun absent => if_neg absent
  simp only [if_pos flying]
  refine ⟨_, rfl, .some ⟨mirrors.node, mirrors.silent, mirrors.controlAir, rfl, mirrors.controlShort, ?_⟩⟩
  intro other member
  exact mirrors.short other (mirrors.air ▸ List.mem_of_mem_erase member)

theorem step_route (mirrors : s.Mirrors t) (i : LinkAddr) (fuel : Nat) :
    ∃ r, s.step nodes packetbufSize (.route i fuel) = some r ∧
      Option.Rel Mirrors r (t.step nodes packetbufSize (.route i fuel)) := by
  simp only [ImageNet.step, System.step, mirrors.beacons]
  refine guarded (fun live => ?_) fun absent => if_neg absent
  obtain ⟨r, routed, same⟩ := (mirrors.node i).routingUpstreamDownstream packetbufSize i fuel
  simp only [if_pos live, routed, Option.map_some, Net.table, Net.best]
  refine ⟨_, rfl, ?_⟩
  generalize (t.data i).routingUpstreamDownstream packetbufSize i fuel (t.net.control i).routingTree
    (t.net.beacons.parents i).bestParentId = r' at same
  cases same with
  | none => exact .none
  | some done =>
      obtain ⟨mirrors', sent, short⟩ := done
      refine .some ⟨?_, mirrors.silent, mirrors.controlAir, ?_, mirrors.controlShort, ?_⟩
      · apply mirrors.setNode
        · exact (System.setData_self t i _).symm ▸ mirrors'
        · exact fun j other => ⟨rfl, rfl, System.setData_other other⟩
      · dsimp only
        rw [sent, fresh_append, mirrors.air]
      · intro frame member
        exact (List.mem_append.mp member).elim (short frame) (mirrors.short frame)

/-- A step of the memory stays inside the arrays, and is the same step of the lists. -/
theorem step (mirrors : s.Mirrors t) {action : ImageAction} (armed : action.Armed s) :
    ∃ r, s.step nodes packetbufSize action = some r ∧
      Option.Rel Mirrors r (t.step nodes packetbufSize (action.view s)) := by
  cases action with
  | beacon sender heard => exact mirrors.step_beacon sender heard
  | expire node p => exact mirrors.step_expire armed
  | silence node => exact mirrors.step_silence node
  | sendControl node => exact mirrors.step_sendControl node
  | receiveControl frame stack posted => exact mirrors.step_receiveControl frame stack posted
  | loseControl frame => exact mirrors.step_loseControl frame
  | update node => exact mirrors.step_update node
  | generate node posted => exact mirrors.step_generate node posted
  | receive frame stack posted => exact mirrors.step_receive frame stack posted
  | lose frame => exact mirrors.step_lose frame
  | route node fuel => exact mirrors.step_route node fuel

/-- A timer that is not set does not fire. -/
theorem step_unarmed {action : ImageAction} (unarmed : ¬ action.Armed s) :
    s.step nodes packetbufSize action = some none := by
  cases action with
  | expire node p => exact if_neg fun occurs => unarmed occurs.2
  | _ => exact absurd trivial unarmed

/-- No step leaves an array. -/
theorem inBounds (mirrors : s.Mirrors t) (action : ImageAction) :
    ∃ r, s.step nodes packetbufSize action = some r := by
  by_cases armed : action.Armed s
  · obtain ⟨r, done, -⟩ := mirrors.step armed
    exact ⟨r, done⟩
  · exact ⟨none, step_unarmed armed⟩

/-- What the memory does the lists do. -/
theorem next (mirrors : s.Mirrors t) {s' : ImageNet} {action : ImageAction}
    (stepped : s.next nodes packetbufSize action = some s') :
    ∃ t', t.step nodes packetbufSize (action.view s) = some t' ∧ s'.Mirrors t' := by
  have done : s.step nodes packetbufSize action = some (some s') := Option.join_eq_some_iff.mp stepped
  by_cases armed : action.Armed s
  · obtain ⟨r, done', same⟩ := mirrors.step armed
    rw [done] at done'
    cases done'
    generalize t.step nodes packetbufSize (action.view s) = r' at same
    cases same with
    | some mirrors' => exact ⟨_, rfl, mirrors'⟩
  · rw [step_unarmed armed] at done
    cases done

/-- Each step of the lists is that of some step of the memory: an entry that expires is in a listed block,
    whose timer is set. -/
theorem exists_action (mirrors : s.Mirrors t) {action : SystemAction}
    (stepped : t.step nodes packetbufSize action = some t') :
    ∃ action' : ImageAction, action'.view s = action ∧ action'.Armed s := by
  cases action with
  | generate node posted => exact ⟨.generate node posted, rfl, trivial⟩
  | receive frame posted => exact ⟨.receive frame (fun _ => 0) posted, rfl, trivial⟩
  | lose frame => exact ⟨.lose frame, rfl, trivial⟩
  | route node fuel => exact ⟨.route node fuel, rfl, trivial⟩
  | net action =>
      cases action with
      | sendControl node => exact ⟨.sendControl node, rfl, trivial⟩
      | receive frame posted => exact ⟨.receiveControl frame (fun _ => 0) posted, rfl, trivial⟩
      | lose frame => exact ⟨.loseControl frame, rfl, trivial⟩
      | deliver node => exact ⟨.update node, rfl, trivial⟩
      | radio action =>
          cases action with
          | beacon sender heard => exact ⟨.beacon sender heard, rfl, trivial⟩
          | silence node => exact ⟨.silence node, rfl, trivial⟩
          | expire node neighbour =>
              simp only [System.step, Net.step, BeaconNet.step, Option.map_eq_some_iff,
                Option.ite_none_right_eq_some] at stepped
              obtain ⟨net, ⟨beacons, ⟨-, entry, found, -⟩, -⟩, -⟩ := stepped
              have listed := List.mem_of_find?_eq_some found
              have own : entry.id = neighbour := by simpa using List.find?_some found
              rw [← (mirrors.node node).neighbours] at listed
              obtain ⟨p, inList, rfl⟩ := List.mem_map.mp listed
              refine ⟨.expire node p, ?_, ((mirrors.node node).held.armed p).mpr inList⟩
              rw [ImageAction.view, own]

/-- What the lists do the memory can do. -/
theorem realised (mirrors : s.Mirrors t) {action : SystemAction}
    (stepped : t.step nodes packetbufSize action = some t') :
    ∃ action' s', s.next nodes packetbufSize action' = some s' ∧ action'.view s = action ∧
      s'.Mirrors t' := by
  obtain ⟨action', rfl, armed⟩ := mirrors.exists_action stepped
  obtain ⟨r, done, same⟩ : ∃ r, s.step nodes packetbufSize action' = some r ∧
      Option.Rel Mirrors r (t.step nodes packetbufSize (action'.view s)) := mirrors.step armed
  rw [stepped] at same
  cases same with
  | some mirrors' =>
      exact ⟨action', _, by rw [ImageNet.next, done]; rfl, rfl, mirrors'⟩

theorem boot : ImageNet.boot.Mirrors System.boot where
  node i := .boot i
  silent := rfl
  controlAir := rfl
  air := rfl
  controlShort := by simp [ImageNet.boot]
  short := by simp [ImageNet.boot]

end ImageNet.Mirrors

/-! ### Runs -/

variable {nodes : Finset LinkAddr} {packetbufSize : Nat}

/-- The same step, taken in states that are the same to the program. -/
def SameStep (e : ImageNet × ImageAction) (e' : System × SystemAction) : Prop :=
  e.1.Mirrors e'.1 ∧ e'.2 = e.2.view e.1

/-- Every run of the memory is, step by step, a run of the lists, and from the state that it reaches no
    step leaves an array, however deep a search goes. How deep the call stack may get is not in the model. -/
theorem image_refines {trace : List (ImageNet × ImageAction)} {s : ImageNet}
    (run : Run (ImageNet.next nodes packetbufSize) anyStep .boot trace s) :
    (∃ trace' t, Run (System.step nodes packetbufSize) anyStep .boot trace' t ∧
      List.Forall₂ SameStep trace trace' ∧ s.Mirrors t) ∧
    ∀ action, ∃ after, s.step nodes packetbufSize action = some after := by
  have refined : ∃ trace' t, Run (System.step nodes packetbufSize) anyStep .boot trace' t ∧
      List.Forall₂ SameStep trace trace' ∧ s.Mirrors t := by
    apply run.matched ImageNet.Mirrors.boot
    intro s action s' t mirrors _ stepped
    obtain ⟨t', stepped', mirrors'⟩ := mirrors.next stepped
    exact ⟨_, t', trivial, stepped', ⟨mirrors, rfl⟩, mirrors'⟩
  obtain ⟨trace', t, run', same, mirrors⟩ := refined
  exact ⟨⟨trace', t, run', same, mirrors⟩, mirrors.inBounds⟩

/-- Node 8 hears a beacon of node 1 and sends it a packet, which node 1 receives on a stack full of ones,
    counts and sends nowhere. -/
theorem image_refines_handedOver :
    ∃ trace s, Run (ImageNet.next {⟨1, 0⟩, ⟨8, 0⟩} 128) anyStep .boot trace s ∧
      (s.node ⟨1, 0⟩).memory.pktStatsCount = 1 ∧
      (∃ trace' t, Run (System.step {⟨1, 0⟩, ⟨8, 0⟩} 128) anyStep .boot trace' t ∧
        List.Forall₂ SameStep trace trace' ∧ s.Mirrors t) ∧
      ∀ action, ∃ after, s.step {⟨1, 0⟩, ⟨8, 0⟩} 128 action = some after := by
  let frame : Frame :=
    { src := ⟨8, 0⟩, dst := ⟨1, 0⟩,
      data := uData :: (packetText { dst := destino, msg := strncpyMsg (seqText 1 8) } ++ [0]) }
  let actions : List ImageAction :=
    [.beacon ⟨1, 0⟩ [(⟨8, 0⟩, -10)], .generate ⟨8, 0⟩ true, .route ⟨8, 0⟩ 2,
      .receive frame (fun _ => 255) true, .route ⟨1, 0⟩ 2]
  have runs : ((execute (ImageNet.next {⟨1, 0⟩, ⟨8, 0⟩} 128) .boot actions).map fun s =>
      (s.node ⟨1, 0⟩).memory.pktStatsCount) = some 1 := by decide +kernel
  obtain ⟨s, executed, counted⟩ := Option.map_eq_some_iff.mp runs
  have run := Run.of_execute anyStep (fun _ _ _ => trivial) executed
  exact ⟨_, s, run, counted, image_refines run⟩

/-- Every run of the lists is, step by step, a run of the memory. -/
theorem image_realises {trace : List (System × SystemAction)} {t : System}
    (run : Run (System.step nodes packetbufSize) anyStep .boot trace t) :
    ∃ trace' s, Run (ImageNet.next nodes packetbufSize) anyStep .boot trace' s ∧
      List.Forall₂ (fun e e' => SameStep e' e) trace trace' ∧ s.Mirrors t := by
  apply run.matched (R := fun (t : System) (s : ImageNet) => s.Mirrors t) ImageNet.Mirrors.boot
  intro t action t' s mirrors _ stepped
  obtain ⟨action', s', stepped', same, mirrors'⟩ := mirrors.realised stepped
  exact ⟨action', s', trivial, stepped', ⟨mirrors, same.symm⟩, mirrors'⟩

theorem image_realises_handedOver :
    ∃ trace t, Run (System.step {⟨1, 0⟩, ⟨8, 0⟩} 128) anyStep .boot trace t ∧ t.air.length = 1 ∧
      ∃ trace' s, Run (ImageNet.next {⟨1, 0⟩, ⟨8, 0⟩} 128) anyStep .boot trace' s ∧
        List.Forall₂ (fun e e' => SameStep e' e) trace trace' ∧ s.Mirrors t := by
  have runs : ((execute (System.step {⟨1, 0⟩, ⟨8, 0⟩} 128) .boot handedOver).map fun s => s.air.length) =
      some 1 := by decide +kernel
  obtain ⟨t, executed, air⟩ := Option.map_eq_some_iff.mp runs
  have run := Run.of_execute anyStep (fun _ _ _ => trivial) executed
  exact ⟨_, t, run, air, image_realises run⟩

end TreeRssi
