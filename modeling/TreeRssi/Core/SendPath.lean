/-
Module: TreeRssi.Core.SendPath
Layer: Core
Purpose: The control part of the send path on its arrays: `Serialize` of `Lab3/tree_lib.c`, and one turn of
  `send_routing_table` of `Lab3/tree_rssi_remote.c` with its two static buffers. Every access names the
  size of its array, the sizes that `snprintf` is given are integers as in C, and the `uint8_t` position is
  advanced only where it does not wrap, so that `none` means that one of these goes wrong.
Imports: TreeRssi.Core.ReceivePath
Trusted boundary: human-reviewed spec
Main exports: advance, Cursor.putAt, serializeChildrenAt, serializeNodesAt, serializeAt, SendMemory,
  SendMemory.serialiseAt, sendRoutingTableAt
Open obligations: none
-/
import TreeRssi.Core.ReceivePath

namespace TreeRssi

open CText Bounds

/-! ### Serialize -/

/-- `pos += written;`, which must not wrap. -/
def advance (pos written : Nat) : Option Nat := if pos + written < 256 then some (pos + written) else none

/-- `buf[pos++] = c; buf[pos] = '\0';` -/
def Cursor.putAt (bufLen : Nat) (s : Cursor) (c : UInt8) : Option Cursor :=
  (writeAt bufLen s.buf s.pos c).bind fun buf =>
  (advance s.pos 1).bind fun pos =>
  (writeAt bufLen buf pos 0).map fun buf => { buf := buf, pos := pos }

/-- The loop over the children of one entry, from the child `j` on. -/
def serializeChildrenAt (bufLen : Nat) (node : NodeCell) : Nat → Nat → Cursor → Option Cursor
  | 0, _, s => some s
  | turns + 1, j, s =>
      if (s.pos : Int) < bufLen - 1 then
        (if j > 0 then s.putAt bufLen (ch ',') else some s).bind fun s =>
        (readAt maxChildren node.children j).bind fun child =>
        let text := decimal child.toNat
        (snprintfAt bufLen s.buf s.pos (bufLen - s.pos) text).bind fun buf =>
          if s.pos + text.length ≥ bufLen then some { buf := buf, pos := s.pos }
          else
            (advance s.pos text.length).bind fun pos =>
              serializeChildrenAt bufLen node turns (j + 1) { buf := buf, pos := pos }
      else some s

/-- The loop over the entries, from the entry `i` on; `size` is the size of the array. -/
def serializeNodesAt (bufLen size : Nat) (tree : Nat → NodeCell) : Nat → Nat → Cursor → Option Cursor
  | 0, _, s => some s
  | turns + 1, i, s =>
      if (s.pos : Int) < bufLen - 1 then
        (readAt size tree i).bind fun node =>
        let text := decimal node.id.toNat ++ [ch ':']
        (snprintfAt bufLen s.buf s.pos (bufLen - s.pos) text).bind fun buf =>
          if s.pos + text.length ≥ bufLen then some { buf := buf, pos := s.pos }
          else
            (advance s.pos text.length).bind fun pos =>
            (serializeChildrenAt bufLen node node.numChildren 0 { buf := buf, pos := pos }).bind fun s =>
            (if (s.pos : Int) < bufLen - 1 then s.putAt bufLen (ch ';') else some s).bind fun s =>
              serializeNodesAt bufLen size tree turns (i + 1) s
      else some s

/-- `Serialize`: the buffer and the returned length. -/
def serializeAt (bufLen size : Nat) (tree : Nat → NodeCell) (nNodes : Nat) (buf : Memory) :
    Option Cursor :=
  (writeAt bufLen buf 0 0).bind fun buf => serializeNodesAt bufLen size tree nNodes 0 { buf := buf, pos := 0 }

/-! ### send_routing_table -/

/-- The routing table, and the `serial_buf` and the `send_buf` of `send_routing_table`. -/
structure SendMemory where
  routingTree : Nat → NodeCell
  treeNNodes : Nat
  serialBuf : Memory
  sendBuf : Memory

/-- `serial_buf` and `slen`. -/
def SendMemory.serialiseAt (self : LinkAddr) (s : SendMemory) : Option Cursor :=
  if s.treeNNodes = 0 then
    let text := decimal self.u8_0.toNat ++ [ch ':', ch ';']
    (snprintfAt treeSerialBuf s.serialBuf 0 treeSerialBuf text).bind fun buf =>
      (advance 0 text.length).map fun slen => { buf := buf, pos := slen }
  else serializeAt treeSerialBuf maxTreeNodes s.routingTree s.treeNNodes s.serialBuf

/-- One turn of `send_routing_table`; `send_buf` has `TREE_SERIAL_BUF + 1` bytes. -/
def sendRoutingTableAt (packetbufSize : Nat) (self bestParentId : LinkAddr) (s : SendMemory) :
    Option (SendMemory × Option Frame) :=
  if bestParentId = linkaddrNull then some (s, none)
  else
    (s.serialiseAt self).bind fun serial =>
      if serial.pos = 0 then some ({ s with serialBuf := serial.buf }, none)
      else
        (writeAt (treeSerialBuf + 1) s.sendBuf 0 uControl).bind fun sendBuf =>
        (copy (treeSerialBuf + 1) sendBuf 1 treeSerialBuf serial.buf 0 (serial.pos + 1)).bind fun sendBuf =>
        (readAll (treeSerialBuf + 1) sendBuf (serial.pos + 2)).map fun data =>
          ({ s with serialBuf := serial.buf, sendBuf := sendBuf },
            some { src := self, dst := bestParentId, data := packetbufCopyfrom packetbufSize data })

end TreeRssi
