/-
Module: TreeRssi.Core.Routing
Layer: Core
Purpose: The data plane: the decision of `routing_upstream_downstream` for one packet at one node, and
  the journey of a packet through a network whose tables and parents do not change meanwhile.
Imports: TreeRssi.Core.Neighbours, TreeRssi.Core.Table
Trusted boundary: human-reviewed spec
Main exports: Decision, routeHop, Outcome, journey
Open obligations: none
-/
import TreeRssi.Core.Neighbours
import TreeRssi.Core.Table

namespace TreeRssi

/-- What a node does with a packet. -/
inductive Decision where
  | deliver
  | forward (nextHop : LinkAddr)
  | drop
deriving DecidableEq, Repr

/-- The decision of `routing_upstream_downstream`; `none` when the search runs out of fuel. -/
def routeHop (fuel : Nat) (tree : RoutingTree) (bestParentId : LinkAddr) (myId dstId : UInt8) :
    Option Decision :=
  if dstId = myId then some .deliver
  else
    (searchForwarder fuel tree myId dstId).map fun forwarder =>
      if forwarder = 0 then
        if bestParentId = linkaddrNull then .drop else .forward bestParentId
      else .forward ⟨forwarder, 0⟩

/-- Where a packet ends, and after how many hops. -/
inductive Outcome where
  | delivered (node : UInt8) (hops : Nat)
  | dropped (node : UInt8) (hops : Nat)
deriving DecidableEq, Repr

/-- One more hop before the end. -/
def Outcome.afterHop : Outcome → Outcome
  | .delivered node hops => .delivered node (hops + 1)
  | .dropped node hops => .dropped node (hops + 1)

/-- The journey of a packet from the node `node` on; `none` when the fuel runs out. An id stands for the
    address with a second byte of 0, and a next hop for the id that is its first byte. -/
def journey (tables : UInt8 → RoutingTree) (bestParents : UInt8 → LinkAddr) (dstId : UInt8) :
    Nat → UInt8 → Option Outcome
  | 0, _ => none
  | fuel + 1, node =>
      match routeHop fuel (tables node) (bestParents node) node dstId with
      | none => none
      | some .deliver => some (.delivered node 0)
      | some .drop => some (.dropped node 0)
      | some (.forward next) => (journey tables bestParents dstId fuel next.u8_0).map Outcome.afterHop

end TreeRssi
