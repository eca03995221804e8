/-
Module: TreeRssi.Core.Neighbours
Layer: Core
Purpose: The neighbour plane of one node, from `Lab3/tree_rssi_remote.c` and `Lab3/tree_lib.[ch]`: the
  list of candidate parents, the elected parent, the callback that runs on every beacon
  (`register_parent`) and the one that runs when a neighbour falls silent (`keepalive_expired`). A
  `ctimer` is not a value here: any listed entry may expire at any time. `int16_t` and `int8_t` values
  are integers, and the only addition that can leave the range is wrapped where the source stores it.
Imports: Mathlib (integer balanced remainder)
Trusted boundary: human-reviewed spec
Main exports: LinkAddr, PreferredParent, ParentState, registerParent, keepaliveExpired, broadcastRssi,
  NeighbourEvent, ParentState.next
Open obligations: none
-/
import Mathlib.Data.Int.Init

namespace TreeRssi

/-- `linkaddr_t`: a Rime address of two bytes. -/
structure LinkAddr where
  u8_0 : UInt8
  u8_1 : UInt8
deriving DecidableEq, Repr

/-- `linkaddr_null`, the address of no node: as a parent it means that there is none. -/
def linkaddrNull : LinkAddr := ⟨0, 0⟩

/-- The assignment of an `int` to an `int16_t`. -/
def int16 (value : Int) : Int := value.bmod 65536

theorem int16_of_range {value : Int} (low : -32768 ≤ value) (high : value < 32768) :
    int16 value = value := by
  unfold int16
  rw [Int.bmod_eq_of_le] <;> omega

/-- `struct preferred_parent`, less the list link and the timer. -/
structure PreferredParent where
  id : LinkAddr
  rssiP : Int
  rssiA : Int
deriving DecidableEq, Repr

/-- `struct beacon`. -/
structure Beacon where
  id : LinkAddr
  rssiP : Int
deriving DecidableEq, Repr

/-- `llenar_beacon`. -/
def llenarBeacon (id : LinkAddr) (rssiP : Int) : Beacon := { id := id, rssiP := rssiP }

/-- Number of blocks in `preferred_parent_mem`. -/
def preferredParentMem : Nat := 10

/-- The value of `my_path_rssi` in a node that has no parent, and the floor of every election. -/
def noPath : Int := -1000

/-- `preferred_parent_list`, `best_parent_id` and `my_path_rssi` of one node. -/
structure ParentState where
  preferredParentList : List PreferredParent
  bestParentId : LinkAddr
  myPathRssi : Int
deriving DecidableEq, Repr

/-- The node state after `select_prefered_parent` has run: node 1 is the root. -/
def selectPreferedParent (self : LinkAddr) : ParentState where
  preferredParentList := []
  bestParentId := linkaddrNull
  myPathRssi := if self.u8_0 = 1 then 0 else noPath

/-- The beacon that `broadcast_rssi` sends. -/
def broadcastRssi (self : LinkAddr) (state : ParentState) : Beacon :=
  if self.u8_0 = 1 then llenarBeacon self 0 else llenarBeacon self state.myPathRssi

/-! ### register_parent -/

/-- Look the sender up in the list and overwrite its two values; `none` when it is not listed. -/
def refreshEntry (sender : LinkAddr) (rssiP rssiA : Int) :
    List PreferredParent → Option (List PreferredParent)
  | [] => none
  | p :: rest =>
      if p.id = sender then some ({ p with rssiP := rssiP, rssiA := rssiA } :: rest)
      else (refreshEntry sender rssiP rssiA rest).map (p :: ·)

/-- Store the sums of a beacon. A sender that is not listed takes a block from the pool and goes to the
    head of the list (`list_push`); `none` when the pool is exhausted. -/
def storeEntry (sender : LinkAddr) (rssiP rssiA : Int) (list : List PreferredParent) :
    Option (List PreferredParent) :=
  match refreshEntry sender rssiP rssiA list with
  | some refreshed => some refreshed
  | none =>
      if list.length < preferredParentMem then
        some ({ id := sender, rssiP := rssiP, rssiA := rssiA } :: list)
      else none

/-- The sums that the election considers. -/
def Eligible (rssiP : Int) : Prop := noPath < rssiP ∧ rssiP < 0

instance (rssiP : Int) : Decidable (Eligible rssiP) := inferInstanceAs (Decidable (_ ∧ _))

/-- One turn of the election loop on `(best_path, winner)`. -/
def electStep (best : Int × Option PreferredParent) (q : PreferredParent) :
    Int × Option PreferredParent :=
  if q.rssiP > best.1 ∧ q.rssiP < 0 then (q.rssiP, some q) else best

/-- The election loop over the list. -/
def elect (list : List PreferredParent) : Int × Option PreferredParent :=
  list.foldl electStep (noPath, none)

/-- `register_parent` at the node `self`, for a beacon heard from `sender` with the RSSI `lastRssi`.
    The root stores the entry but elects nobody, and an election without a winner leaves the parent
    and the path sum as they are. -/
def registerParent (self : LinkAddr) (state : ParentState) (sender : LinkAddr) (received : Beacon)
    (lastRssi : Int) : ParentState :=
  match storeEntry sender (int16 (received.rssiP + lastRssi)) lastRssi state.preferredParentList with
  | none => state
  | some list =>
      if self.u8_0 = 1 then { state with preferredParentList := list }
      else
        match elect list with
        | (_, none) => { state with preferredParentList := list }
        | (bestPath, some winner) =>
            { preferredParentList := list, bestParentId := winner.id, myPathRssi := bestPath }

/-! ### keepalive_expired -/

/-- `keepalive_expired` for the listed entry `p`: an expired parent is invalidated, and the entry
    leaves the list. -/
def keepaliveExpired (state : ParentState) (p : PreferredParent) : ParentState :=
  let state :=
    if state.bestParentId = p.id then { state with bestParentId := linkaddrNull, myPathRssi := noPath }
    else state
  { state with preferredParentList := state.preferredParentList.erase p }

/-! ### Runs of one node -/

/-- What happens to the neighbour plane of a node: it hears a beacon, whatever the sender announces, or
    the keepalive timer of an entry fires. -/
inductive NeighbourEvent where
  | beacon (sender : LinkAddr) (received : Beacon) (lastRssi : Int)
  | expire (p : PreferredParent)
deriving DecidableEq, Repr

/-- The announced sum is an `int16_t` and the RSSI an `int8_t`. -/
def InRange (received : Beacon) (lastRssi : Int) : Prop :=
  (-32768 ≤ received.rssiP ∧ received.rssiP ≤ 32767) ∧ -128 ≤ lastRssi ∧ lastRssi ≤ 127

instance (received : Beacon) (lastRssi : Int) : Decidable (InRange received lastRssi) :=
  inferInstanceAs (Decidable (_ ∧ _))

/-- One step of the neighbour plane of the node `self`; only the timer of a listed entry can fire. -/
def ParentState.next (self : LinkAddr) (state : ParentState) : NeighbourEvent → Option ParentState
  | .beacon sender received lastRssi =>
      if InRange received lastRssi then some (registerParent self state sender received lastRssi)
      else none
  | .expire p => if p ∈ state.preferredParentList then some (keepaliveExpired state p) else none

/-- `register_parent` stores a beacon of `sender`: it is listed already, or the pool is not full. -/
def Stores (state : ParentState) (sender : LinkAddr) : Prop :=
  (∃ q ∈ state.preferredParentList, q.id = sender) ∨
    state.preferredParentList.length < preferredParentMem

instance (state : ParentState) (sender : LinkAddr) : Decidable (Stores state sender) :=
  inferInstanceAs (Decidable (_ ∨ _))

end TreeRssi
