/-
Module: TreeRssi.Proofs.Convergence
Layer: Proofs
Purpose: Convergence of the control plane under fixed parents. Soundness comes from the provenance
  invariant with the tree itself as the links; completeness from stability: the table of a parent
  contains the edge to each child and every edge of the child's table, since merging the child's message
  changes nothing and there is room for every edge of the subtree.
Imports: TreeRssi.Lib.ParentTree, TreeRssi.Proofs.Provenance, TreeRssi.Proofs.Capacity
Trusted boundary: none
Main exports: ParentsFrozen, SubtreeEdge, FitsSubtree, StableTables, run_entries, table_converges
Open obligations: none
-/
import TreeRssi.Lib.ParentTree
import TreeRssi.Proofs.Capacity
import TreeRssi.Proofs.Provenance

namespace TreeRssi

open CText LabelledRun

/-! ### Fixed parents -/

/-- A tree of the network: its vertices are the nodes, and node 1 is its root. -/
structure NetworkTree (nodes : Finset LinkAddr) (T : ParentTree LinkAddr) : Prop where
  verts : ∀ i, i ∈ T.verts ↔ i ∈ nodes
  root : T.root.u8_0 = 1
  distinct : DistinctIds nodes
  nonzero : ∀ i ∈ nodes, i.u8_0 ≠ 0

/-- The best parent of every node is its parent in the tree. -/
def ParentsFrozen (nodes : Finset LinkAddr) (T : ParentTree LinkAddr) (net : Net) : Prop :=
  ∀ i ∈ nodes, net.best i = (T.parent i).getD linkaddrNull

/-- The edges of the subtree of `i`, as ids. -/
def SubtreeEdge (T : ParentTree LinkAddr) (i : LinkAddr) (p c : UInt8) : Prop :=
  ∃ parent child : LinkAddr, parent.u8_0 = p ∧ child.u8_0 = c ∧ T.Up child parent ∧ T.Below parent i

/-- The subtree of `i` fits: some table of its edges has at most 20 entries and 8 children per entry, and
    a text of at most 127 characters. -/
def FitsSubtree (T : ParentTree LinkAddr) (i : LinkAddr) : Prop :=
  ∃ t, TableOk t ∧ (∀ p c, HasEdge t p c ↔ SubtreeEdge T i p c) ∧ (fullText t).length < treeSerialBuf

/-- The table that the best parent of `i` would have after merging the current control message of `i`. -/
def Net.resent (packetbufSize : Nat) (net : Net) (i : LinkAddr) : Option RoutingTree :=
  match (net.sendControl packetbufSize i).2 with
  | none => none
  | some frame =>
      match recvUc frame.data with
      | .control payload => some (updateRoutingTable frame.dst.u8_0 (net.table frame.dst) (cstr payload))
      | _ => none

/-- Sending any node's control message again and merging it at its parent changes no table. -/
def StableTables (nodes : Finset LinkAddr) (packetbufSize : Nat) (net : Net) : Prop :=
  ∀ i ∈ nodes, ∀ merged ∈ net.resent packetbufSize i, merged = net.table (net.best i)

variable {nodes : Finset LinkAddr} {T : ParentTree LinkAddr} {packetbufSize : Nat}

/-- With frozen parents control messages go up the tree. -/
theorem run_upwards {start net : Net} {trace : List (Net × NetAction)}
    (run : Run (Net.step nodes packetbufSize) (fun net _ => ParentsFrozen nodes T net) start trace net) :
    Run (Net.step nodes packetbufSize) (SendsOver packetbufSize T.Up) start trace net := by
  apply run.weaken
  intro net action net' frozen step
  cases action with
  | sendControl node =>
      intro frame sent
      obtain ⟨live, -⟩ := Option.ite_none_right_eq_some.mp step
      have proper : net.best node ≠ linkaddrNull := by
        intro null
        rw [Net.sendControl, sendRoutingTable, if_pos null] at sent
        cases sent
      have best := frozen node live.1
      cases parent : T.parent node with
      | none =>
          rw [parent] at best
          exact absurd best proper
      | some p =>
          rw [parent] at best
          rw [best]
          exact parent
  | radio | receive | lose | deliver => trivial

/-- No entry of a table is empty, but for node 1's own. -/
theorem run_entries {ok : Net → NetAction → Prop} {beacons : BeaconNet} {net : Net}
    {trace : List (Net × NetAction)}
    (run : Run (Net.step nodes packetbufSize) ok (Net.boot beacons) trace net) (i : LinkAddr) :
    ∀ node ∈ net.table i, node.children ≠ [] ∨ (i.u8_0 = 1 ∧ node.id = 1) := by
  have added : ∀ (tree : RoutingTree) p c,
      (∀ node ∈ tree, node.children ≠ [] ∨ (i.u8_0 = 1 ∧ node.id = 1)) →
      ∀ node ∈ addChild tree maxTreeNodes p c, node.children ≠ [] ∨ (i.u8_0 = 1 ∧ node.id = 1) :=
    fun tree p c old => (addChild_cases tree _ p c).entry old (by simp) (by simp)
  apply run.invariant (I := fun net =>
    ∀ node ∈ net.table i, node.children ≠ [] ∨ (i.u8_0 = 1 ∧ node.id = 1))
  · rw [boot_table]
    split
    next isRoot => simp [isRoot]
    next => simp
  · intro net action net' entries _ step
    rcases (step_stepped step).table i with same | ⟨-, -, merged⟩
    · rwa [same]
    · rw [merged]
      exact mergeRecv_induction added entries

/-! ### Completeness -/

/-- An edge below `i` gives `i` a child. -/
theorem SubtreeEdge.ownChild {i : LinkAddr} {p c : UInt8} (edge : SubtreeEdge T i p c) :
    ∃ child, T.Up child i := by
  obtain ⟨parent, child, -, -, up, below⟩ := edge
  rcases below.cases_tail with rfl | ⟨j, -, up'⟩
  · exact ⟨child, up⟩
  · exact ⟨j, up'⟩

/-- A subtree edge of a child is one of its parent. -/
theorem SubtreeEdge.ofChild {i j : LinkAddr} {p c : UInt8} (up : T.Up j i)
    (edge : SubtreeEdge T j p c) : SubtreeEdge T i p c := by
  obtain ⟨parent, child, own, listed, up', below⟩ := edge
  exact ⟨parent, child, own, listed, up', below.tail up⟩

/-- The tables hold edges of the own subtree only. -/
theorem Honest.subtreeEdge {net : Net} (honest : Honest nodes T.Up net) {i : LinkAddr} {p c : UInt8}
    (edge : HasEdge (net.table i) p c) : SubtreeEdge T i p c := by
  obtain ⟨parent, child, own, listed, origin⟩ := honest.edges i p c edge
  exact ⟨parent, child, own, listed, origin.linked.link,
    Relation.ReflTransGen.mono (fun _ _ linked => linked.link) _ _ origin.below⟩

/-- The table of a node stays within any table of its subtree, once the subtree has an edge. -/
theorem Honest.within {net : Net} (honest : Honest nodes T.Up net) {i : LinkAddr}
    (entries : ∀ node ∈ net.table i, node.children ≠ [] ∨ (i.u8_0 = 1 ∧ node.id = 1))
    {t : RoutingTree} (same : ∀ p c, HasEdge t p c ↔ SubtreeEdge T i p c)
    (hasChild : ∃ child, T.Up child i) : Within t (net.table i) := by
  refine ⟨honest.ok i, fun p c edge => (same p c).mpr (honest.subtreeEdge edge), fun node member => ?_⟩
  rcases entries node member with nonempty | ⟨isRoot, own⟩
  · obtain ⟨c, rest, children⟩ := List.exists_cons_of_ne_nil nonempty
    have edge : HasEdge (net.table i) node.id c := ⟨node, member, rfl, by simp [children]⟩
    obtain ⟨node', member', same', -⟩ := (same node.id c).mpr (honest.subtreeEdge edge)
    exact ⟨node', member', same'⟩
  · obtain ⟨child, up⟩ := hasChild
    obtain ⟨node', member', same', -⟩ := (same i.u8_0 child.u8_0).mpr ⟨i, child, rfl, rfl, up, .refl⟩
    exact ⟨node', member', by rw [same', isRoot, own]⟩

/-- The text of the table of a node below another one fits the buffer. -/
theorem Honest.sentText_fits {net : Net} (honest : Honest nodes T.Up net) {j : LinkAddr}
    (entries : ∀ node ∈ net.table j, node.children ≠ [] ∨ (j.u8_0 = 1 ∧ node.id = 1))
    (fits : FitsSubtree T j) (notRoot : j.u8_0 ≠ 1) :
    (fullText (sentTree j (net.table j))).length < treeSerialBuf := by
  have nonempty : ∀ node ∈ net.table j, node.children ≠ [] := fun node member =>
    (entries node member).resolve_right fun isRoot => notRoot isRoot.1
  rw [sentTree]
  split
  · have leaf : (entryText ⟨j.u8_0, []⟩).length < treeSerialBuf := entryText_length_lt (by simp)
    simpa [fullText] using leaf
  next some_ =>
    obtain ⟨t, okT, same, short⟩ := fits
    -- A table that is not empty has an edge.
    obtain ⟨first, rest, table⟩ := List.exists_cons_of_length_pos (Nat.pos_of_ne_zero some_)
    have member : first ∈ net.table j := by simp [table]
    obtain ⟨c, others, children⟩ := List.exists_cons_of_ne_nil (nonempty first member)
    have edge : HasEdge (net.table j) first.id c := ⟨first, member, rfl, by simp [children]⟩
    have within := honest.within entries same (honest.subtreeEdge edge).ownChild
    exact Nat.lt_of_le_of_lt (fullText_length_le within okT nonempty) short

/-- In a stable state the table of a parent has the edge to each child, and every edge that the child
    has. -/
theorem StableTables.told {net : Net} (stable : StableTables nodes packetbufSize net)
    (big : 128 ≤ packetbufSize) (tree : NetworkTree nodes T) (honest : Honest nodes T.Up net)
    (entries : ∀ i, ∀ node ∈ net.table i, node.children ≠ [] ∨ (i.u8_0 = 1 ∧ node.id = 1))
    (fits : ∀ i ∈ nodes, FitsSubtree T i) (frozen : ParentsFrozen nodes T net) {j i : LinkAddr}
    (up : T.Up j i) : HasEdge (net.table i) i.u8_0 j.u8_0 ∧
      ∀ p c, HasEdge (net.table j) p c → HasEdge (net.table i) p c := by
  have jMem := (tree.verts j).mp (T.parent_mem up).1
  have iMem := (tree.verts i).mp (T.parent_mem up).2
  have best : net.best j = i := by rw [frozen j jMem, show T.parent j = some i from up]; rfl
  have proper : net.best j ≠ linkaddrNull := by
    rw [best]
    rintro rfl
    exact tree.nonzero _ iMem rfl
  have notRoot : j.u8_0 ≠ 1 := by
    intro isRoot
    cases tree.distinct j jMem T.root ((tree.verts _).mp T.root_mem) (isRoot.trans tree.root.symm)
    exact absurd up (by rw [ParentTree.Up, T.parent_root]; simp)
  -- The message of the child is its whole table.
  obtain ⟨frame, sent⟩ := sendRoutingTable_sends packetbufSize j (honest.ok j).fits proper
  obtain ⟨payload, received, read⟩ := sendRoutingTable_exact big (honest.ok j).fits
    (honest.sentText_fits (entries j) (fits j jMem) notRoot) sent
  have dst : frame.dst = i := (sendRoutingTable_payload big sent).1.2.1.trans best
  have merged : mergeRecv i.u8_0 (net.table i) (sentTree j (net.table j)) = net.table i := by
    have again : net.resent packetbufSize j =
        some (mergeRecv i.u8_0 (net.table i) (sentTree j (net.table j))) := by
      have sent' : (net.sendControl packetbufSize j).2 = some frame := sent
      simp only [Net.resent, sent', received, updateRoutingTable, dst]
      rw [read]
      rfl
    rw [stable j jMem _ again, best]
  -- The parent has room for all of it.
  obtain ⟨t, okT, same, -⟩ := fits i iMem
  have within := honest.within (entries i) same ⟨j, up⟩
  have room := within.mergeRecv okT (headId_sentTree (honest.first j))
    ((same _ _).mpr ⟨i, j, rfl, rfl, up, .refl⟩)
    (fun p c edge => (same p c).mpr ((honest.subtreeEdge (hasEdge_sentTree.mp edge)).ofChild up))
  rw [merged] at room
  exact ⟨room.1, fun p c edge => room.2 p c (hasEdge_sentTree.mpr edge)⟩

/-- With fixed parents that form a tree, in every reachable state in which re-sending changes nothing the
    table of each node holds exactly the edges of its own subtree. -/
theorem table_converges (big : 128 ≤ packetbufSize) (tree : NetworkTree nodes T)
    (fits : ∀ i ∈ nodes, FitsSubtree T i) {beacons : BeaconNet} {trace : List (Net × NetAction)}
    {net : Net}
    (run : Run (Net.step nodes packetbufSize) (fun net _ => ParentsFrozen nodes T net) (Net.boot beacons)
      trace net)
    (frozen : ParentsFrozen nodes T net) (stable : StableTables nodes packetbufSize net) :
    ∀ i ∈ nodes, ∀ p c, HasEdge (net.table i) p c ↔ SubtreeEdge T i p c := by
  have honest := run_honest big (run_upwards run)
  have told : ∀ {j i}, T.Up j i → _ := fun up =>
    stable.told big tree honest (run_entries run) fits frozen up
  intro i _ p c
  refine ⟨honest.subtreeEdge, ?_⟩
  rintro ⟨parent, child, rfl, rfl, up, below⟩
  -- The edge rises from the table of its parent to every table above.
  have rises : ∀ {i}, T.Below parent i → HasEdge (net.table i) parent.u8_0 child.u8_0 := by
    intro i below
    induction below with
    | refl => exact (told up).1
    | tail _ up' ih => exact (told up').2 _ _ ih
  exact rises below

/-- Node 2 below node 1, as addresses. -/
def twoAddrs : ParentTree LinkAddr where
  verts := {i | i ∈ ({⟨1, 0⟩, ⟨2, 0⟩} : Finset LinkAddr)}
  root := ⟨1, 0⟩
  parent c := if c = ⟨2, 0⟩ then some ⟨1, 0⟩ else none
  root_mem := by decide
  parent_root := by decide
  parent_mem := by
    intro c p up
    obtain ⟨rfl, same⟩ := Option.ite_none_right_eq_some.mp up
    cases same
    decide
  reaches_root := by
    intro v vertex
    have which : v = ⟨1, 0⟩ ∨ v = ⟨2, 0⟩ := by simpa using vertex
    rcases which with rfl | rfl
    · exact .refl
    · exact .single (by decide)

/-- The neighbour plane in which node 2 has elected node 1. -/
def electedOne : BeaconNet :=
  BeaconNet.cold.broadcast ⟨1, 0⟩ [(⟨2, 0⟩, -10)]

theorem twoAddrs_up {c p : LinkAddr} : twoAddrs.Up c p ↔ c = ⟨2, 0⟩ ∧ p = ⟨1, 0⟩ := by
  rw [ParentTree.Up, twoAddrs, Option.ite_none_right_eq_some]
  simp [eq_comm]

theorem twoAddrs_fits : ∀ i ∈ ({⟨1, 0⟩, ⟨2, 0⟩} : Finset LinkAddr), FitsSubtree twoAddrs i := by
  intro i member
  have which : i = ⟨1, 0⟩ ∨ i = ⟨2, 0⟩ := by simpa using member
  rcases which with rfl | rfl
  · refine ⟨[⟨1, [2]⟩], by decide, fun p c => ?_, by decide⟩
    constructor
    · rintro ⟨node, listed, rfl, child⟩
      cases List.mem_singleton.mp listed
      cases List.mem_singleton.mp child
      exact ⟨⟨1, 0⟩, ⟨2, 0⟩, rfl, rfl, twoAddrs_up.mpr ⟨rfl, rfl⟩, .refl⟩
    · rintro ⟨parent, child, rfl, rfl, up, -⟩
      obtain ⟨rfl, rfl⟩ := twoAddrs_up.mp up
      exact ⟨⟨1, [2]⟩, by simp, rfl, by simp⟩
  · refine ⟨[], by decide, fun p c => ?_, by decide⟩
    constructor
    · rintro ⟨node, listed, -⟩
      cases listed
    · rintro ⟨parent, child, rfl, rfl, up, below⟩
      obtain ⟨rfl, rfl⟩ := twoAddrs_up.mp up
      exact absurd below up.not_below

/-- Node 2 reports once to node 1, and then the table of node 1 has the one edge. -/
theorem table_converges_twoAddrs :
    ∃ trace net, Run (Net.step {⟨1, 0⟩, ⟨2, 0⟩} 128)
        (fun net _ => ParentsFrozen {⟨1, 0⟩, ⟨2, 0⟩} twoAddrs net) (Net.boot electedOne) trace net ∧
      HasEdge (net.table ⟨1, 0⟩) 1 2 := by
  let nodes : Finset LinkAddr := {⟨1, 0⟩, ⟨2, 0⟩}
  let report : List NetAction :=
    [.sendControl ⟨2, 0⟩, .receive ⟨⟨2, 0⟩, ⟨1, 0⟩, [uControl, ch '2', ch ':', ch ';', 0]⟩ true,
      .deliver ⟨1, 0⟩]
  have reported : ((execute (Net.step nodes 128) (Net.boot electedOne) report).map fun net =>
      ([net.best ⟨1, 0⟩, net.best ⟨2, 0⟩], net.table ⟨1, 0⟩,
        [net.resent 128 ⟨1, 0⟩, net.resent 128 ⟨2, 0⟩])) =
      some ([linkaddrNull, ⟨1, 0⟩], [⟨1, [2]⟩], [none, some [⟨1, [2]⟩]]) := by
    decide +kernel
  have frozenBefore : ∀ e ∈ history (Net.step nodes 128) (Net.boot electedOne) report,
      e.1.best ⟨1, 0⟩ = linkaddrNull ∧ e.1.best ⟨2, 0⟩ = ⟨1, 0⟩ := by
    decide +kernel
  obtain ⟨net, executed, view⟩ := Option.map_eq_some_iff.mp reported
  simp only [Prod.mk.injEq, List.cons.injEq, and_true] at view
  obtain ⟨⟨best1, best2⟩, table, resent1, resent2⟩ := view
  have which : ∀ i ∈ nodes, i = ⟨1, 0⟩ ∨ i = ⟨2, 0⟩ := by decide
  have frozenOf : ∀ net : Net, net.best ⟨1, 0⟩ = linkaddrNull → net.best ⟨2, 0⟩ = ⟨1, 0⟩ →
      ParentsFrozen nodes twoAddrs net := by
    intro net best1 best2 i member
    rcases which i member with rfl | rfl
    · exact best1
    · exact best2
  have run : Run (Net.step nodes 128) (fun net _ => ParentsFrozen nodes twoAddrs net)
      (Net.boot electedOne) _ net :=
    (Run.of_execute anyStep (fun _ _ _ => trivial) executed).guard fun e member =>
      frozenOf e.1 (frozenBefore e member).1 (frozenBefore e member).2
  have tree : NetworkTree nodes twoAddrs := ⟨fun _ => Iff.rfl, rfl, by decide, by decide⟩
  have stable : StableTables nodes 128 net := by
    intro i member merged again
    rcases which i member with rfl | rfl
    · rw [resent1] at again
      cases again
    · rw [resent2] at again
      cases again
      rw [best2, table]
  refine ⟨_, net, run, ?_⟩
  exact (table_converges (by decide) tree twoAddrs_fits run (frozenOf net best1 best2) stable ⟨1, 0⟩
    (by decide) 1 2).mpr ⟨⟨1, 0⟩, ⟨2, 0⟩, rfl, rfl, twoAddrs_up.mpr ⟨rfl, rfl⟩, .refl⟩

end TreeRssi
