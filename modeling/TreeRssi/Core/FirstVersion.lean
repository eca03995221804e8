/-
Module: TreeRssi.Core.FirstVersion
Layer: Core
Purpose: The unicast path of `Lab-1/tree_rssi.c`, the first version of the program: `send_unicast_data`
  makes a message and sends it to the best parent, and `recv_uc` copies what arrives into a local array and
  sends the array on to its own best parent. What the local arrays hold before they are written is a
  parameter.
Imports: TreeRssi.Core.Control
Trusted boundary: human-reviewed spec
Main exports: FirstVersion.dataText, FirstVersion.sendUnicastData, FirstVersion.recvUc,
  FirstVersion.Relay, FirstVersion.carry
Open obligations: none
-/
import TreeRssi.Core.Control

namespace TreeRssi

namespace FirstVersion

open CText

/-- `sizeof(msg)` in `send_unicast_data`. -/
def sendMsgSize : Nat := 32

/-- `sizeof(msg)` in `recv_uc`. -/
def recvMsgSize : Nat := 64

/-- `Data from %d.%d` -/
def dataText (self : LinkAddr) : List UInt8 :=
  [ch 'D', ch 'a', ch 't', ch 'a', ch ' ', ch 'f', ch 'r', ch 'o', ch 'm', ch ' '] ++
    decimal self.u8_0.toNat ++ ch '.' :: decimal self.u8_1.toNat

/-- One turn of `send_unicast_data`: `strlen(msg) + 1` bytes of the message go to the best parent, if there
    is one. -/
def sendUnicastData (packetbufSize : Nat) (stack : Memory) (self bestParentId : LinkAddr) : Option Frame :=
  if bestParentId = linkaddrNull then none
  else
    let msg := snprintf stack 0 sendMsgSize (dataText self)
    let data := bytes msg ((cstring msg sendMsgSize).length + 1)
    some { src := self, dst := bestParentId, data := packetbufCopyfrom packetbufSize data }

/-- `recv_uc`: the packet is cut to the array and terminated, and `len + 1` bytes go to the best parent, if
    there is one. -/
def recvUc (packetbufSize : Nat) (stack : Memory) (self bestParentId : LinkAddr) (raw : List UInt8) :
    Option Frame :=
  let len := u8 raw.length
  let len := if recvMsgSize ≤ len then recvMsgSize - 1 else len
  let msg := store (store stack 0 (raw.take len)) len [0]
  if bestParentId = linkaddrNull then none
  else
    some
      { src := self
        dst := bestParentId
        data := packetbufCopyfrom packetbufSize (bytes msg (len + 1)) }

/-- A relaying node when a packet arrives: its best parent, and what its stack holds. -/
structure Relay where
  stack : Memory
  bestParentId : LinkAddr

/-- A packet on its way: each relay receives what the one before has sent. -/
def carry (packetbufSize : Nat) : List Relay → Frame → Option Frame
  | [], frame => some frame
  | relay :: rest, frame =>
      (recvUc packetbufSize relay.stack frame.dst relay.bestParentId frame.data).bind
        (carry packetbufSize rest)

end FirstVersion

end TreeRssi
