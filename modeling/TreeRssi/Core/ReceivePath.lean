/-
Module: TreeRssi.Core.ReceivePath
Layer: Core
Purpose: The receive path of `Lab3/tree_rssi_remote.c` and `Lab3/tree_lib.c` on its arrays: `recv_uc` with
  its local copies, its two scanners and the statistics table, `Deserialize` into `recv_tree`, and the
  merge of `update_routing_table` by `Add_child`. Every access names the size of the array it is made in,
  so that `none` means an access outside an array or past the terminator of a string, or a loop that does
  not end. Pointers into a string are positions. What `atoi` returns is a parameter, what a local array
  holds before it is written comes with the call, and so does the block that `memb_alloc` gives.
Imports: TreeRssi.Core.Data, TreeRssi.Lib.Bounds
Trusted boundary: human-reviewed spec
Main exports: NodeCell, NodeMemory, readChildren, readNodes, addChildAt, updateRoutingTableAt, parseStatsAt,
  updateStatsAt, PktCell, packetEntryAt, recvUcAt, MemoryEvent, NodeMemory.next
Open obligations: none
-/
import TreeRssi.Core.Data
import TreeRssi.Lib.Bounds

namespace TreeRssi

open CText Bounds

/-! ### The arrays -/

/-- `struct tree_node` with its whole `children` array. -/
structure NodeCell where
  id : UInt8
  children : Nat → UInt8
  numChildren : Nat

/-- `struct pkt_entry`, less the list link. -/
structure PktCell where
  dst : UInt8
  msg : Memory

/-- The static data of the receive path, and the number of `ev_update_routing` events that are posted and
    not delivered. -/
structure NodeMemory where
  ctrlPayload : Memory
  pending : Nat
  recvTree : Nat → NodeCell
  routingTree : Nat → NodeCell
  treeNNodes : Nat
  pktStatsTable : Nat → PktStats
  pktStatsCount : Nat

/-- The static data after `select_prefered_parent` has run. -/
def NodeMemory.boot (me : LinkAddr) : NodeMemory where
  ctrlPayload := fun _ => 0
  pending := 0
  recvTree := fun _ => { id := 0, children := fun _ => 0, numChildren := 0 }
  routingTree := fun i =>
    { id := if me.u8_0 = 1 ∧ i = 0 then 1 else 0, children := fun _ => 0, numChildren := 0 }
  treeNNodes := if me.u8_0 = 1 then 1 else 0
  pktStatsTable := fun _ => { srcId := 0, seqMax := 0, received := 0 }
  pktStatsCount := 0

/-! ### Deserialize -/

/-- `if(num_children < MAX_CHILDREN) children[num_children++] = child;` -/
def NodeCell.push (node : NodeCell) (child : UInt8) : Option NodeCell :=
  if node.numChildren < maxChildren then
    (writeAt maxChildren node.children node.numChildren child).map fun children =>
      { node with children := children, numChildren := u8 (node.numChildren + 1) }
  else some node

/-- The loop over the children of the entry `n`: the array and the pointer behind them. -/
def readChildren (atoi : List UInt8 → Int) (size : Nat) (buf : Memory) (n : Nat) :
    Nat → (Nat → NodeCell) → Nat → Option ((Nat → NodeCell) × Nat)
  | 0, _, _ => none
  | turns + 1, tree, p =>
      (charAt size buf p).bind fun b =>
        if b = ch ';' ∨ b = 0 then some (tree, p)
        else if isDigit b then
          (stringFrom size buf p).bind fun text =>
          (updateAt maxTreeNodes tree n fun node => node.push (toU8 (atoi text))).bind fun tree =>
          (scan size buf (fun b => b ≠ ch ',' && b ≠ ch ';') size p).bind fun p =>
          (skipIf size buf (ch ',') p).bind fun p =>
            readChildren atoi size buf n turns tree p
        else readChildren atoi size buf n turns tree (p + 1)

/-- The loop over the entries: the array and the number of entries. -/
def readNodes (atoi : List UInt8 → Int) (size : Nat) (buf : Memory) (maxN : Nat) :
    Nat → (Nat → NodeCell) → Nat → Nat → Option ((Nat → NodeCell) × Nat)
  | 0, _, _, _ => none
  | turns + 1, tree, n, p =>
      (charAt size buf p).bind fun b =>
        if b = 0 ∨ ¬ n < maxN then some (tree, n)
        else
          (stringFrom size buf p).bind fun text =>
          (scan size buf (· ≠ ch ':') size p).bind fun p =>
          (charAt size buf p).bind fun b =>
            if b = 0 then some (tree, n)
            else
              (updateAt maxTreeNodes tree n fun node =>
                some { node with id := toU8 (atoi text), numChildren := 0 }).bind fun tree =>
              (readChildren atoi size buf n size tree (p + 1)).bind fun read =>
              (skipIf size buf (ch ';') read.2).bind fun p =>
                readNodes atoi size buf maxN turns read.1 (u8 (n + 1)) p

/-! ### Add_child -/

/-- The end of `Add_child`: the child is appended to the entry `i` unless it is there. -/
def attachAt (tree : Nat → NodeCell) (i : Nat) (child : UInt8) : Option (Nat → NodeCell) :=
  updateAt maxTreeNodes tree i fun node =>
    (firstIndex maxChildren node.children (· = child) node.numChildren).bind fun found =>
      if found.isSome then some node else node.push child

/-- `Add_child` on the array and its number of entries. -/
def addChildAt (maxN : Nat) (parent child : UInt8) (tree : (Nat → NodeCell) × Nat) :
    Option ((Nat → NodeCell) × Nat) :=
  (firstIndex maxTreeNodes tree.1 (·.id = parent) tree.2).bind fun found =>
    match found with
    | some i => (attachAt tree.1 i child).map fun nodes => (nodes, tree.2)
    | none =>
        if maxN ≤ tree.2 then some tree
        else
          (updateAt maxTreeNodes tree.1 tree.2 fun node =>
            some { node with id := parent, numChildren := 0 }).bind fun nodes =>
          (attachAt nodes tree.2 child).map fun nodes => (nodes, u8 (tree.2 + 1))

/-! ### update_routing_table -/

/-- The children of the entry `i` of `recv_tree` are added one by one. -/
def mergeEntryAt (recvTree : Nat → NodeCell) (i : Nat) (tree : (Nat → NodeCell) × Nat) :
    Option ((Nat → NodeCell) × Nat) :=
  (readAt maxTreeNodes recvTree i).bind fun node =>
    forLoop (fun j tree => (readAt maxChildren node.children j).bind fun child =>
      addChildAt maxTreeNodes node.id child tree) node.numChildren tree

/-- One turn of `update_routing_table`, on the string that the event points to. -/
def updateRoutingTableAt (atoi : List UInt8 → Int) (me : LinkAddr) (s : NodeMemory) : Option NodeMemory :=
  (readNodes atoi treeSerialBuf s.ctrlPayload maxTreeNodes treeSerialBuf s.recvTree 0 0).bind fun recv =>
    if recv.2 = 0 then some { s with recvTree := recv.1 }
    else
      (readAt maxTreeNodes recv.1 0).bind fun sender =>
      (addChildAt maxTreeNodes me.u8_0 sender.id (s.routingTree, s.treeNNodes)).bind fun tree =>
      (forLoop (mergeEntryAt recv.1) recv.2 tree).map fun tree =>
        { s with recvTree := recv.1, routingTree := tree.1, treeNNodes := tree.2 }

/-! ### The scanners of recv_uc -/

/-- `while(*p != ':' && *p != '\0') p++; if(*p == ':') p++;` in `msg`. -/
def skipFieldAt (msg : Memory) (p : Nat) : Option Nat :=
  (scan dataMsgSize msg (· ≠ ch ':') dataMsgSize p).bind (skipIf dataMsgSize msg (ch ':'))

/-- `pkt_seq` and `pkt_src` of `msg`. -/
def parseStatsAt (atoi : List UInt8 → Int) (msg : Memory) : Option (Nat × UInt8) :=
  (startsWith dataMsgSize msg dstTag 0).bind fun routed =>
  (if routed then skipFieldAt msg 4 else some 0).bind fun sp =>
  (startsWith dataMsgSize msg seqTag sp).bind fun numbered =>
    if numbered then
      (stringFrom dataMsgSize msg (sp + 4)).bind fun seq =>
      (skipFieldAt msg (sp + 4)).bind fun sp =>
      (stringFrom dataMsgSize msg sp).map fun src => (toU16 (atoi seq), toU8 (atoi src))
    else some (0, 0)

/-- The statistics after a packet: the table and its number of entries. -/
def updateStatsAt (pktSrc : UInt8) (pktSeq : Nat) (table : Nat → PktStats) (count : Nat) :
    Option ((Nat → PktStats) × Nat) :=
  if pktSrc = 0 then some (table, count)
  else
    (firstIndex maxPktSources table (·.srcId = pktSrc) count).bind fun found =>
      match found with
      | some si =>
          (updateAt maxPktSources table si fun ps => some (ps.count pktSeq)).map fun table =>
            (table, count)
      | none =>
          if count < maxPktSources then
            (writeAt maxPktSources table count { srcId := pktSrc, seqMax := 0, received := 0 }).bind
              fun table =>
            (updateAt maxPktSources table count fun ps => some (ps.count pktSeq)).map fun table =>
              (table, u8 (count + 1))
          else some (table, count)

/-- `strncpy(pe->msg, p, sizeof(pe->msg) - 1); pe->msg[sizeof(pe->msg) - 1] = '\0';` -/
def fillMsgAt (msg : Memory) (p : Nat) (dst : Memory) : Option Memory :=
  (strncpy dataMsgSize dataMsgSize msg (dataMsgSize - 1) false 0 p dst).bind fun dst =>
    writeAt dataMsgSize dst (dataMsgSize - 1) 0

/-- The block `pe` filled from `msg`. -/
def packetEntryAt (atoi : List UInt8 → Int) (source : LinkAddr) (msg : Memory) (pe : PktCell) :
    Option PktCell :=
  (startsWith dataMsgSize msg dstTag 0).bind fun routed =>
    if routed then
      (stringFrom dataMsgSize msg 4).bind fun dst =>
      (skipFieldAt msg 4).bind fun p2 =>
      (fillMsgAt msg p2 pe.msg).map fun filled => { dst := toU8 (atoi dst), msg := filled }
    else (fillMsgAt msg 0 pe.msg).map fun filled => { dst := source.u8_0, msg := filled }

/-! ### recv_uc -/

/-- `memcpy(local, raw + 1, payload_len); local[payload_len] = '\0'; printf("...%s\n", ..., local);` after
    `payload_len` is cut to the size of the local array; the array and `payload_len`. -/
def copyPayload (size : Nat) (stack : Memory) (raw : List UInt8) (payloadLen : Nat) :
    Option (Memory × Nat) :=
  let payloadLen := if size ≤ payloadLen then size - 1 else payloadLen
  (copy size stack 0 raw.length (raw.getD · 0) 1 payloadLen).bind fun buf =>
  (writeAt size buf payloadLen 0).bind fun buf =>
  (stringFrom size buf 0).map fun _ => (buf, payloadLen)

/-- The statistics part of `recv_uc`, which only node 1 runs. -/
def countPacketAt (atoi : List UInt8 → Int) (me : LinkAddr) (msg : Memory) (s : NodeMemory) :
    Option NodeMemory :=
  if me.u8_0 = 1 then
    (parseStatsAt atoi msg).bind fun stats =>
    (updateStatsAt stats.2 stats.1 s.pktStatsTable s.pktStatsCount).map fun table =>
      { s with pktStatsTable := table.1, pktStatsCount := table.2 }
  else some s

/-- `recv_uc` at the node `me` for a packet from `source`: the static data and the filled block, if
    `memb_alloc` is called and gives one. -/
def recvUcAt (atoi : List UInt8 → Int) (me source : LinkAddr) (raw : List UInt8) (stack : Memory)
    (pe : Option PktCell) (posted : Bool) (s : NodeMemory) : Option (NodeMemory × Option PktCell) :=
  let len := u16 raw.length
  if len = 0 then some (s, none)
  else
    (readAt raw.length (raw.getD · 0) 0).bind fun msgType =>
      if msgType = uControl then
        (copyPayload treeSerialBuf stack raw (len - 1)).bind fun serial =>
        (copy treeSerialBuf s.ctrlPayload 0 treeSerialBuf serial.1 0 (serial.2 + 1)).map fun payload =>
          ({ s with
              ctrlPayload := payload
              pending := if posted then s.pending + 1 else s.pending }, none)
      else if msgType = uData then
        (copyPayload dataMsgSize stack raw (len - 1)).bind fun msg =>
        (countPacketAt atoi me msg.1 s).bind fun s =>
          match pe with
          | none => some (s, none)
          | some pe => (packetEntryAt atoi source msg.1 pe).map fun filled => (s, some filled)
      else some (s, none)

/-! ### Runs of one node -/

/-- What happens on the receive path: a packet of any bytes arrives, whatever the stack holds, whatever
    `memb_alloc` gives and whether or not the event queue has room; or an event is delivered. -/
inductive MemoryEvent where
  | receive (source : LinkAddr) (raw : List UInt8) (stack : Memory) (pe : Option PktCell) (posted : Bool)
  | update

/-- One step of the receive path of the node `me`. -/
def NodeMemory.next (atoi : List UInt8 → Int) (me : LinkAddr) (s : NodeMemory) :
    MemoryEvent → Option NodeMemory
  | .receive source raw stack pe posted => (recvUcAt atoi me source raw stack pe posted s).map Prod.fst
  | .update =>
      match s.pending with
      | 0 => none
      | pending + 1 => updateRoutingTableAt atoi me { s with pending := pending }

end TreeRssi
