/-
Module: TreeRssi.Proofs.Representation
Layer: Proofs
Purpose: The routing table of one node under any packets whatever. `recv_uc` checks nothing of a control
  string, so the invariant rests on `Add_child` and on the order of the merge alone: the table stays
  within its bounds and without repetitions, it only grows at its ends, and its first entry is the
  node's own. The receiver of the node's own messages relies on the last point.
Imports: TreeRssi.Lib.Run, TreeRssi.Proofs.ControlMessages
Trusted boundary: none
Main exports: OwnTable, ControlState.next_table, routingTable_representation
Open obligations: none
-/
import TreeRssi.Lib.Run
import TreeRssi.Proofs.ControlMessages

namespace TreeRssi

open CText LabelledRun

/-- The table of the node `owner`: well formed, and its own entry comes first. -/
structure OwnTable (owner : LinkAddr) (tree : RoutingTree) : Prop where
  ok : TableOk tree
  first : ∀ id ∈ headId tree, id = owner.u8_0

theorem OwnTable.boot (self : LinkAddr) : OwnTable self (ControlState.boot self).routingTree := by
  refine ⟨.boot self, ?_⟩
  rw [ControlState.boot]
  split
  next isRoot => simp [headId, isRoot]
  next => simp [headId]

theorem OwnTable.mergeRecv {self : LinkAddr} {tree : RoutingTree} (own : OwnTable self tree)
    (recvTree : RoutingTree) : OwnTable self (mergeRecv self.u8_0 tree recvTree) :=
  ⟨own.ok.mergeRecv _ _, headId_mergeRecv own.first _⟩

/-- A merge removes and reorders nothing. -/
theorem Extends.mergeRecv (myId : UInt8) (tree recvTree : RoutingTree) :
    Extends tree (mergeRecv myId tree recvTree) :=
  mergeRecv_induction (P := Extends tree)
    (fun merged p c soFar => soFar.trans (addChild_cases merged _ p c).extends) (.refl tree)

/-- What a step of one node does to its table: nothing, or the merge of some string. -/
theorem ControlState.next_table {packetbufSize : Nat} {self : LinkAddr} {s s' : ControlState}
    {event : ControlEvent} (stepped : s.next packetbufSize self event = some s') :
    s'.routingTree = s.routingTree ∨
      ∃ string, s'.routingTree = updateRoutingTable self.u8_0 s.routingTree string := by
  cases event with
  | send best =>
      cases stepped
      exact .inl (sendRoutingTable_keeps _ _ _ _).1
  | receive raw posted =>
      cases stepped
      exact .inl (ControlState.receive_routingTree _ _ _)
  | deliver => exact .inr ⟨_, (ControlState.deliver_some stepped).1⟩

theorem OwnTable.next {packetbufSize : Nat} {self : LinkAddr} {s s' : ControlState}
    {event : ControlEvent} (own : OwnTable self s.routingTree)
    (stepped : s.next packetbufSize self event = some s') :
    OwnTable self s'.routingTree ∧ Extends s.routingTree s'.routingTree := by
  rcases ControlState.next_table stepped with same | ⟨string, merged⟩
  · rw [same]
    exact ⟨own, .refl _⟩
  · rw [merged]
    exact ⟨own.mergeRecv _, .mergeRecv _ _ _⟩

variable {packetbufSize : Nat} {self : LinkAddr} {trace : List (ControlState × ControlEvent)}
  {s : ControlState}

theorem run_ownTable
    (run : Run (ControlState.next packetbufSize self) anyStep (ControlState.boot self) trace s) :
    OwnTable self s.routingTree :=
  run.invariant (I := fun s => OwnTable self s.routingTree) (.boot self)
    fun _ _ _ own _ stepped => (own.next stepped).1

/-- Whatever packets a node receives, its table stays within the bounds and without repetitions, nothing
    in it is removed or reordered, and its first entry is the node's own. So every control message that
    the node sends decodes to a tree whose first id is the node's. -/
theorem routingTable_representation (big : 128 ≤ packetbufSize)
    (run : Run (ControlState.next packetbufSize self) anyStep (ControlState.boot self) trace s) :
    (s.routingTree.length ≤ maxTreeNodes ∧
      (∀ node ∈ s.routingTree, node.children.length ≤ maxChildren ∧ node.children.Nodup) ∧
      EntriesNodup s.routingTree ∧ (∀ id ∈ headId s.routingTree, id = self.u8_0)) ∧
    (∀ pre event, (pre, event) ∈ trace → Extends pre.routingTree s.routingTree) ∧
    ∀ best frame, (sendRoutingTable packetbufSize self best s).2 = some frame →
      ∃ payload, recvUc frame.data = .control payload ∧
        headId (deserialize (cstr payload) maxTreeNodes) = some self.u8_0 := by
  have own := run_ownTable run
  refine ⟨⟨own.ok.fits.entries, fun node member =>
    ⟨own.ok.fits.children node member, own.ok.children node member⟩, own.ok.ids, own.first⟩, ?_, ?_⟩
  · intro pre event member
    exact Run.rel_of_mem (I := fun s => OwnTable self s.routingTree)
      (R := fun s s' => Extends s.routingTree s'.routingTree)
      (fun _ _ _ => Extends.trans) (.boot self)
      (fun _ _ _ own _ stepped => own.next stepped) run member
  · intro best frame sent
    obtain ⟨payload, received, told⟩ := sendRoutingTable_told big own.ok.fits own.first sent
    exact ⟨payload, received, told.first⟩

/-- Node 2 receives a string that names itself and node 0, and still announces itself first. -/
theorem routingTable_representation_hostile :
    ∃ trace s, Run (ControlState.next 128 ⟨2, 0⟩) anyStep (ControlState.boot ⟨2, 0⟩) trace s ∧
      s.routingTree = [⟨2, [7]⟩, ⟨7, [2, 0]⟩] ∧ headId s.routingTree = some 2 := by
  have hostile : ((execute (ControlState.next 128 ⟨2, 0⟩) (ControlState.boot ⟨2, 0⟩)
      [.receive [uControl, ch '7', ch ':', ch '2', ch ',', ch '2', ch ',', ch '0'] true, .deliver]).map
      fun s => s.routingTree) = some [⟨2, [7]⟩, ⟨7, [2, 0]⟩] := by
    decide +kernel
  obtain ⟨s, executed, table⟩ := Option.map_eq_some_iff.mp hostile
  have run := Run.of_execute anyStep (fun _ _ _ => trivial) executed
  have own := (routingTable_representation (by decide) run).1.2.2.2
  refine ⟨_, s, run, table, ?_⟩
  have first : headId s.routingTree ≠ none := by
    rw [table]
    decide
  obtain ⟨id, some_⟩ := Option.ne_none_iff_exists'.mp first
  rw [some_, own id some_]

end TreeRssi
