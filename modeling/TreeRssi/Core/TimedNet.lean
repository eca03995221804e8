/-
Module: TreeRssi.Core.TimedNet
Layer: Core
Purpose: The neighbour plane of a whole network with its clock: the timer `et` of each node's
  `broadcast_rssi`, set to a waiting time drawn from `trickle_interval`, and the timer `keepalive` of each
  entry, which `register_parent` restarts and which runs `keepalive_expired`. All nodes boot at time 0 and
  share one clock. A timer never goes off early, and not more than `latency` late: the clock waits for it.
  A beacon is heard at the moment it is sent. `CLOCK_SECOND`, `latency` and the values of `random_rand` are
  parameters.
Imports: TreeRssi.Core.BeaconNet, TreeRssi.Core.Trickle
Trusted boundary: human-reviewed spec
Main exports: keepaliveTimeout, TimedNet, TimedAction, TimedNet.cold, TimedNet.Prompt, TimedNet.step
Open obligations: none
-/
import TreeRssi.Core.BeaconNet
import TreeRssi.Core.Trickle

namespace TreeRssi

/-- `KEEPALIVE_TIMEOUT`. -/
def keepaliveTimeout (clockSecond : Nat) : Nat := clockSecond * 100

/-- The clock, the neighbour plane, and for every node its `trickle_interval`, the `wait_time` of
    `broadcast_rssi`, the moment its timer `et` is set to, and the moments that the `keepalive` timers of its
    entries are set to. -/
structure TimedNet where
  now : Nat
  net : BeaconNet
  trickleInterval : LinkAddr → Nat
  waitTime : LinkAddr → Nat
  et : LinkAddr → Nat
  keepalive : LinkAddr → LinkAddr → Nat

/-- The steps: the clock goes on by one, or one of the steps of the neighbour plane. -/
inductive TimedAction where
  | tick
  | beacon (sender : LinkAddr) (heard : List (LinkAddr × Int)) (randomRand : Nat)
  | expire (node neighbour : LinkAddr)
  | silence (node : LinkAddr)
deriving DecidableEq, Repr

namespace TimedNet

/-- Every node just after boot, when `broadcast_rssi` has set its timer for the first time. -/
def cold (clockSecond : Nat) (randomRand : LinkAddr → Nat) : TimedNet where
  now := 0
  net := .cold
  trickleInterval _ := trickleMin clockSecond
  waitTime node := drawWait (trickleMin clockSecond) (randomRand node)
  et node := drawWait (trickleMin clockSecond) (randomRand node)
  keepalive _ _ := 0

/-- What the beacon timer of one node works on. -/
def atNode (s : TimedNet) (node : LinkAddr) : TrickleNode where
  parents := s.net.parents node
  trickleInterval := s.trickleInterval node
  waitTime := s.waitTime node

/-- No timer of a running node has to go off before the clock goes on. -/
def Prompt (latency : Nat) (nodes : Finset LinkAddr) (s : TimedNet) : Prop :=
  ∀ node ∈ nodes, node ∉ s.net.silent → s.now < s.et node + latency ∧
    ∀ q ∈ (s.net.parents node).preferredParentList, s.now < s.keepalive node q.id + latency

instance (latency : Nat) (nodes : Finset LinkAddr) (s : TimedNet) : Decidable (s.Prompt latency nodes) :=
  inferInstanceAs (Decidable (∀ node ∈ nodes, _ → _))

/-- `register_parent` runs `ctimer_set` at `node` for the beacon of `sender`. -/
def Restarts (s : TimedNet) (sender : LinkAddr) (heard : List (LinkAddr × Int)) (node : LinkAddr) : Prop :=
  (heard.lookup node).isSome ∧ Stores (s.net.parents node) sender

instance (s : TimedNet) (sender : LinkAddr) (heard : List (LinkAddr × Int)) (node : LinkAddr) :
    Decidable (s.Restarts sender heard node) := inferInstanceAs (Decidable (_ ∧ _))

/-- The timers after a beacon: the sender has set `et` for its next one, and every receiver that has stored
    this one has restarted the sender's `keepalive`. -/
def setTimers (clockSecond : Nat) (s : TimedNet) (sender : LinkAddr) (heard : List (LinkAddr × Int))
    (randomRand : Nat) (net : BeaconNet) : TimedNet :=
  let fired := ((s.atNode sender).fire clockSecond sender randomRand).1
  { now := s.now
    net := net
    trickleInterval := fun node => if node = sender then fired.trickleInterval else s.trickleInterval node
    waitTime := fun node => if node = sender then fired.waitTime else s.waitTime node
    et := fun node => if node = sender then s.now + fired.waitTime else s.et node
    keepalive := fun node neighbour =>
      if neighbour = sender ∧ s.Restarts sender heard node then s.now + keepaliveTimeout clockSecond
      else s.keepalive node neighbour }

/-- The end of `keepalive_expired` at `node`: `trickle_interval = TRICKLE_MIN;` -/
def resetInterval (clockSecond : Nat) (s : TimedNet) (node : LinkAddr) (net : BeaconNet) : TimedNet :=
  { s with
    net := net
    trickleInterval := fun other =>
      if other = node then trickleMin clockSecond else s.trickleInterval other }

/-- One step; `none` when the step cannot occur. -/
def step (clockSecond latency : Nat) (nodes : Finset LinkAddr) (s : TimedNet) :
    TimedAction → Option TimedNet
  | .tick => if s.Prompt latency nodes then some { s with now := s.now + 1 } else none
  | .beacon sender heard randomRand =>
      if s.et sender ≤ s.now then
        (s.net.step nodes (.beacon sender heard)).map (s.setTimers clockSecond sender heard randomRand)
      else none
  | .expire node neighbour =>
      if s.keepalive node neighbour ≤ s.now then
        (s.net.step nodes (.expire node neighbour)).map (s.resetInterval clockSecond node)
      else none
  | .silence node =>
      (s.net.step nodes (.silence node)).map fun net => { s with net := net }

end TimedNet

namespace TimedAction

/-- The step of the neighbour plane, if it is one. -/
def neighbour? : TimedAction → Option BeaconAction
  | .tick => none
  | .beacon sender heard _ => some (.beacon sender heard)
  | .expire node neighbour => some (.expire node neighbour)
  | .silence node => some (.silence node)

/-- A beacon of `node`. -/
def sends (node : LinkAddr) : TimedAction → Bool
  | .beacon sender _ _ => decide (sender = node)
  | _ => false

/-- A beacon of `node` that `receiver` hears. -/
def carries (node receiver : LinkAddr) : TimedAction → Bool
  | .beacon sender heard _ => decide (sender = node) && (heard.lookup receiver).isSome
  | _ => false

end TimedAction

end TreeRssi
