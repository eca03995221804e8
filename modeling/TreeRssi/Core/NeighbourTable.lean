/-
Module: TreeRssi.Core.NeighbourTable
Layer: Core
Purpose: The neighbour plane of one node of `Lab3/tree_rssi_remote.c` with its memory: the blocks of
  `preferred_parent_mem`, the list that runs through them and the keepalive timer inside each block are
  separate data, which `register_parent` and `keepalive_expired` update one after the other. A pointer
  to an entry is the number of its block. A timer that fires is no longer set when its callback runs.
Imports: TreeRssi.Core.Neighbours, TreeRssi.Lib.BlockPool
Trusted boundary: human-reviewed spec
Main exports: NeighbourTable, NeighbourTable.registerParent, NeighbourTable.keepaliveExpired,
  TableEvent, NeighbourTable.next, NeighbourTable.view
Open obligations: none
-/
import TreeRssi.Core.Neighbours
import TreeRssi.Lib.BlockPool

namespace TreeRssi

open BlockPool

/-- A pointer to a block of `preferred_parent_mem`. -/
abbrev ParentPtr := Fin preferredParentMem

/-- The static data of the neighbour plane. `keepalive` says which blocks have their timer set. -/
structure NeighbourTable where
  mem : Pool preferredParentMem
  block : ParentPtr → PreferredParent
  preferredParentList : List ParentPtr
  keepalive : ParentPtr → Bool
  bestParentId : LinkAddr
  myPathRssi : Int

namespace NeighbourTable

/-- The neighbour plane after `select_prefered_parent` has run. -/
def boot (me : LinkAddr) : NeighbourTable where
  mem := BlockPool.empty
  block := fun _ => { id := linkaddrNull, rssiP := 0, rssiA := 0 }
  preferredParentList := []
  keepalive := fun _ => false
  bestParentId := linkaddrNull
  myPathRssi := if me.u8_0 = 1 then 0 else noPath

/-- The entries that the list runs through, with the elected parent. -/
def view (t : NeighbourTable) : ParentState where
  preferredParentList := t.preferredParentList.map t.block
  bestParentId := t.bestParentId
  myPathRssi := t.myPathRssi

/-! ### register_parent -/

/-- The entry of the sender, or a new block that is pushed with the sender's address; `none` when
    `memb_alloc` has no block. -/
def entryFor (t : NeighbourTable) (sender : LinkAddr) : Option (ParentPtr × NeighbourTable) :=
  match t.preferredParentList.find? fun p => (t.block p).id = sender with
  | some p => some (p, t)
  | none =>
      match alloc t.mem with
      | none => none
      | some (p, mem) =>
          some (p, { t with
            mem := mem
            block := Function.update t.block p { t.block p with id := sender }
            preferredParentList := push p t.preferredParentList })

/-- `p->rssi_p = ...; p->rssi_a = last_rssi; ctimer_set(&p->keepalive, ...);` -/
def refresh (t : NeighbourTable) (p : ParentPtr) (rssiP rssiA : Int) : NeighbourTable :=
  { t with
    block := Function.update t.block p { t.block p with rssiP := rssiP, rssiA := rssiA }
    keepalive := Function.update t.keepalive p true }

/-- One turn of the election loop on `(best_path, winner)`. -/
def electStep (t : NeighbourTable) (best : Int × Option ParentPtr) (q : ParentPtr) :
    Int × Option ParentPtr :=
  if (t.block q).rssiP > best.1 ∧ (t.block q).rssiP < 0 then ((t.block q).rssiP, some q) else best

/-- The election loop. -/
def elect (t : NeighbourTable) : Int × Option ParentPtr :=
  t.preferredParentList.foldl t.electStep (noPath, none)

/-- The end of `register_parent`: node 1 returns before the election, and an election without a winner
    changes nothing. -/
def chooseParent (me : LinkAddr) (t : NeighbourTable) : NeighbourTable :=
  if me.u8_0 = 1 then t
  else
    match t.elect with
    | (_, none) => t
    | (bestPath, some winner) =>
        { t with bestParentId := (t.block winner).id, myPathRssi := bestPath }

/-- `register_parent` at the node `me`, for a beacon heard from `sender` with the RSSI `lastRssi`. -/
def registerParent (me : LinkAddr) (t : NeighbourTable) (sender : LinkAddr) (received : Beacon)
    (lastRssi : Int) : NeighbourTable :=
  match t.entryFor sender with
  | none => t
  | some (p, t) => (t.refresh p (int16 (received.rssiP + lastRssi)) lastRssi).chooseParent me

/-! ### keepalive_expired -/

/-- The timer of the block `p` fires and is no longer set. -/
def disarm (t : NeighbourTable) (p : ParentPtr) : NeighbourTable :=
  { t with keepalive := Function.update t.keepalive p false }

/-- `keepalive_expired` for the block `p`. -/
def keepaliveExpired (t : NeighbourTable) (p : ParentPtr) : NeighbourTable :=
  let t :=
    if t.bestParentId = (t.block p).id then
      { t with bestParentId := linkaddrNull, myPathRssi := noPath }
    else t
  { t with preferredParentList := t.preferredParentList.erase p, mem := free t.mem p }

end NeighbourTable

/-! ### Runs of one node -/

/-- What happens to the neighbour plane: a beacon is heard, or the keepalive timer of a block fires. -/
inductive TableEvent where
  | beacon (sender : LinkAddr) (received : Beacon) (lastRssi : Int)
  | expire (p : ParentPtr)
deriving DecidableEq, Repr

/-- One step of the neighbour plane of the node `me`; any timer that is set can fire. -/
def NeighbourTable.next (me : LinkAddr) (t : NeighbourTable) : TableEvent → Option NeighbourTable
  | .beacon sender received lastRssi =>
      if InRange received lastRssi then some (t.registerParent me sender received lastRssi) else none
  | .expire p => if t.keepalive p then some ((t.disarm p).keepaliveExpired p) else none

/-- The same event for the list of entries. -/
def TableEvent.view (t : NeighbourTable) : TableEvent → NeighbourEvent
  | .beacon sender received lastRssi => .beacon sender received lastRssi
  | .expire p => .expire (t.block p)

end TreeRssi
