/-
Module: TreeRssi.Core.Control
Layer: Core
Purpose: The control plane of one node: `send_routing_table`, which serialises the routing table and
  sends it to the best parent; `recv_uc`, which copies a received control string into the one static
  `ctrl_payload` and posts an event; and `update_routing_table`, which merges what `ctrl_payload` holds
  when the event is delivered. Events carry a pointer, so the queue is the number of pending events.
Imports: TreeRssi.Core.Neighbours, TreeRssi.Core.Codec
Trusted boundary: human-reviewed spec
Main exports: ControlState, Frame, sendRoutingTable, Received, recvUc, updateRoutingTable,
  ControlState.receive, ControlState.deliver, ControlAction, ControlState.step, ControlEvent,
  ControlState.next
Open obligations: none
-/
import TreeRssi.Core.Codec
import TreeRssi.Core.Neighbours

namespace TreeRssi

open CText

/-- `U_DATA`. -/
def uData : UInt8 := 1

/-- `U_CONTROL`. -/
def uControl : UInt8 := 2

/-- `TREE_SERIAL_BUF`. -/
def treeSerialBuf : Nat := 128

/-- `sizeof(msg)` in `recv_uc`. -/
def dataMsgSize : Nat := 32

/-- The static data of the control plane: `routing_tree`, the `serial_buf` of `send_routing_table`, the
    bytes that the last reception stored in `ctrl_payload`, and the number of `ev_update_routing` events
    that are posted and not delivered. -/
structure ControlState where
  routingTree : RoutingTree
  serialBuf : Memory
  ctrlPayload : List UInt8
  pending : Nat

/-- The control plane after `select_prefered_parent` has run: node 1 starts with its own entry. -/
def ControlState.boot (self : LinkAddr) : ControlState where
  routingTree := if self.u8_0 = 1 then [{ id := 1, children := [] }] else []
  serialBuf := fun _ => 0
  ctrlPayload := []
  pending := 0

/-! ### send_routing_table -/

/-- A unicast packet. -/
structure Frame where
  src : LinkAddr
  dst : LinkAddr
  data : List UInt8
deriving DecidableEq, Repr

/-- `packetbuf_copyfrom` into a packet buffer of `packetbufSize` bytes. -/
def packetbufCopyfrom (packetbufSize : Nat) (data : List UInt8) : List UInt8 := data.take packetbufSize

/-- `serial_buf` and `slen`: a node without a table announces itself, any other serialises its table. -/
def ControlState.serialise (self : LinkAddr) (s : ControlState) : Cursor :=
  if s.routingTree.length = 0 then
    let text := decimal self.u8_0.toNat ++ [ch ':', ch ';']
    { buf := snprintf s.serialBuf 0 treeSerialBuf text, pos := u8 text.length }
  else serialize s.routingTree s.serialBuf treeSerialBuf

/-- One turn of `send_routing_table`: the new state and the packet for the best parent, if one is
    sent. The packet takes `slen + 1` bytes of `serial_buf`. -/
def sendRoutingTable (packetbufSize : Nat) (self bestParentId : LinkAddr) (s : ControlState) :
    ControlState × Option Frame :=
  if bestParentId = linkaddrNull then (s, none)
  else
    let serial := s.serialise self
    let s := { s with serialBuf := serial.buf }
    if serial.pos = 0 then (s, none)
    else
      let data := packetbufCopyfrom packetbufSize (uControl :: bytes serial.buf (serial.pos + 1))
      (s, some { src := self, dst := bestParentId, data := data })

/-- Sending touches neither the table nor what was received. -/
theorem sendRoutingTable_keeps (packetbufSize : Nat) (self best : LinkAddr) (s : ControlState) :
    (sendRoutingTable packetbufSize self best s).1.routingTree = s.routingTree ∧
      (sendRoutingTable packetbufSize self best s).1.ctrlPayload = s.ctrlPayload := by
  rw [sendRoutingTable]
  split
  · exact ⟨rfl, rfl⟩
  · simp only
    split <;> exact ⟨rfl, rfl⟩

/-! ### recv_uc -/

/-- What `recv_uc` makes of a packet: the bytes copied into `ctrl_payload`, or the message of a data
    packet. -/
inductive Received where
  | nothing
  | control (payload : List UInt8)
  | data (msg : List UInt8)
deriving DecidableEq, Repr

/-- The head of `recv_uc`: the first byte selects the branch, and the payload is cut to its buffer and
    terminated. -/
def recvUc (raw : List UInt8) : Received :=
  match raw with
  | [] => .nothing
  | msgType :: payload =>
      if msgType = uControl then .control (payload.take (treeSerialBuf - 1) ++ [0])
      else if msgType = uData then .data (payload.take (dataMsgSize - 1) ++ [0])
      else .nothing

/-- The control branch of `recv_uc`. `posted` says whether the event queue had room. -/
def ControlState.receive (s : ControlState) (raw : List UInt8) (posted : Bool) : ControlState :=
  match recvUc raw with
  | .control payload =>
      { s with ctrlPayload := payload, pending := if posted then s.pending + 1 else s.pending }
  | _ => s

/-- A reception leaves the table alone. -/
theorem ControlState.receive_routingTree (s : ControlState) (raw : List UInt8) (posted : Bool) :
    (s.receive raw posted).routingTree = s.routingTree := by
  rw [ControlState.receive]
  split <;> rfl

/-- A reception leaves `ctrl_payload` alone or fills it with the control string of the packet. -/
theorem ControlState.receive_ctrlPayload (s : ControlState) (raw : List UInt8) (posted : Bool) :
    (s.receive raw posted).ctrlPayload = s.ctrlPayload ∨
      recvUc raw = .control (s.receive raw posted).ctrlPayload := by
  rw [ControlState.receive]
  split
  next payload taken => exact .inr taken
  next => exact .inl rfl

/-! ### update_routing_table -/

/-- The merge of a decoded string: the sender becomes a child of this node, and every edge of the
    received tree is added. -/
def mergeRecv (myId : UInt8) (tree recvTree : RoutingTree) : RoutingTree :=
  match recvTree with
  | [] => tree
  | sender :: _ =>
      recvTree.foldl
        (fun tree node =>
          node.children.foldl (fun tree child => addChild tree maxTreeNodes node.id child) tree)
        (addChild tree maxTreeNodes myId sender.id)

/-- `update_routing_table` on a control string. -/
def updateRoutingTable (myId : UInt8) (tree : RoutingTree) (serialStr : List UInt8) : RoutingTree :=
  mergeRecv myId tree (deserialize serialStr maxTreeNodes)

/-- The delivery of one `ev_update_routing` event, if there is one. -/
def ControlState.deliver (self : LinkAddr) (s : ControlState) : Option ControlState :=
  match s.pending with
  | 0 => none
  | pending + 1 =>
      some { s with
        routingTree := updateRoutingTable self.u8_0 s.routingTree (cstr s.ctrlPayload)
        pending := pending }

/-- The delivery of an event merges what `ctrl_payload` holds, and takes the event. -/
theorem ControlState.deliver_some {self : LinkAddr} {s s' : ControlState}
    (event : s.deliver self = some s') :
    s'.routingTree = updateRoutingTable self.u8_0 s.routingTree (cstr s.ctrlPayload) ∧
      s'.ctrlPayload = s.ctrlPayload ∧ s.pending = s'.pending + 1 := by
  rw [ControlState.deliver] at event
  split at event
  · cases event
  next pending waiting =>
    cases event
    exact ⟨rfl, rfl, waiting⟩

/-! ### Runs of one node -/

/-- What happens to the control plane of a node: it receives a `U_CONTROL` packet with the given bytes,
    or an event is delivered. -/
inductive ControlAction where
  | receive (payload : List UInt8)
  | deliver
deriving DecidableEq, Repr

/-- One step of the control plane of a node, with room in the event queue. -/
def ControlState.step (self : LinkAddr) (s : ControlState) : ControlAction → Option ControlState
  | .receive payload => some (s.receive (uControl :: payload) true)
  | .deliver => s.deliver self

/-- What happens to the control plane of a node among all its processes: it takes a turn of
    `send_routing_table` with some best parent, a packet of any bytes arrives, or an event is
    delivered. -/
inductive ControlEvent where
  | send (bestParentId : LinkAddr)
  | receive (raw : List UInt8) (posted : Bool)
  | deliver
deriving DecidableEq, Repr

/-- One step of the control plane of a node, whoever sends the packets. -/
def ControlState.next (packetbufSize : Nat) (self : LinkAddr) (s : ControlState) :
    ControlEvent → Option ControlState
  | .send bestParentId => some (sendRoutingTable packetbufSize self bestParentId s).1
  | .receive raw posted => some (s.receive raw posted)
  | .deliver => s.deliver self

/-- The control string that a received packet brings. -/
def ControlAction.received : ControlAction → Option (List UInt8)
  | .receive payload => some (cstr (payload.take (treeSerialBuf - 1) ++ [0]))
  | .deliver => none

end TreeRssi
