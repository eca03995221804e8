/-
Module: TreeRssi.Core.Trickle
Layer: Core
Purpose: The beacon timer of `Lab3/tree_rssi_remote.c`: the waiting times that `broadcast_rssi` draws from
  `trickle_interval`, the doubling of the interval behind each beacon, and the reset of the interval by
  `keepalive_expired`, which runs while the thread waits. `CLOCK_SECOND` and the values of `random_rand`
  are parameters. A `clock_time_t` is a natural number, since no value exceeds `2 * TRICKLE_MAX`.
Imports: TreeRssi.Core.Neighbours
Trusted boundary: human-reviewed spec
Main exports: trickleMin, trickleMax, drawWait, doubleInterval, TrickleNode, TrickleNode.fire,
  TrickleEvent, TrickleNode.next
Open obligations: none
-/
import TreeRssi.Core.Neighbours

namespace TreeRssi

/-- `TRICKLE_MIN`. -/
def trickleMin (clockSecond : Nat) : Nat := clockSecond / 8

/-- `TRICKLE_MAX`. -/
def trickleMax (clockSecond : Nat) : Nat := clockSecond * 4

/-- `trickle_interval / 2 + random_rand() % (trickle_interval / 2 + 1)` -/
def drawWait (trickleInterval randomRand : Nat) : Nat :=
  trickleInterval / 2 + randomRand % (trickleInterval / 2 + 1)

/-- The interval behind a beacon. -/
def doubleInterval (clockSecond trickleInterval : Nat) : Nat :=
  if trickleInterval < trickleMax clockSecond then
    if trickleInterval * 2 > trickleMax clockSecond then trickleMax clockSecond else trickleInterval * 2
  else trickleInterval

/-- The neighbour plane of a node, and the `trickle_interval` and the `wait_time` of `broadcast_rssi`, which
    is waiting for its timer. -/
structure TrickleNode where
  parents : ParentState
  trickleInterval : Nat
  waitTime : Nat
deriving DecidableEq, Repr

/-- The node when `broadcast_rssi` waits for the first time. -/
def TrickleNode.boot (clockSecond : Nat) (self : LinkAddr) (randomRand : Nat) : TrickleNode where
  parents := selectPreferedParent self
  trickleInterval := trickleMin clockSecond
  waitTime := drawWait (trickleMin clockSecond) randomRand

/-- The timer of `broadcast_rssi` expires: the beacon is sent, the interval doubled, and the next waiting
    time drawn. -/
def TrickleNode.fire (clockSecond : Nat) (self : LinkAddr) (s : TrickleNode) (randomRand : Nat) :
    TrickleNode × Beacon :=
  let trickleInterval := doubleInterval clockSecond s.trickleInterval
  ({ s with
      trickleInterval := trickleInterval
      waitTime := drawWait trickleInterval randomRand },
    broadcastRssi self s.parents)

/-- The end of `keepalive_expired`: `trickle_interval = TRICKLE_MIN;` -/
def resetTrickle (clockSecond : Nat) (trickleInterval : Nat) : NeighbourEvent → Nat
  | .beacon _ _ _ => trickleInterval
  | .expire _ => trickleMin clockSecond

/-- What happens to the node while `broadcast_rssi` waits: it hears a beacon, or the keepalive timer of a
    neighbour expires; or the waiting ends, and `random_rand` gives a value. -/
inductive TrickleEvent where
  | neighbour (event : NeighbourEvent)
  | timer (randomRand : Nat)
deriving DecidableEq, Repr

/-- One step of the node `self`. -/
def TrickleNode.next (clockSecond : Nat) (self : LinkAddr) (s : TrickleNode) :
    TrickleEvent → Option TrickleNode
  | .neighbour event =>
      (s.parents.next self event).map fun parents =>
        { s with
          parents := parents
          trickleInterval := resetTrickle clockSecond s.trickleInterval event }
  | .timer randomRand => some (s.fire clockSecond self randomRand).1

end TreeRssi
