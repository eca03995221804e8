/-
Module: TreeRssi.Proofs.SearchTermination
Layer: Proofs
Purpose: When `Search_forwarder` returns. Tables only gain edges, so a pair of nodes that were each
  other's parent at different times can close a cycle in a table, and the search of that table does not
  end. The search ends for every destination exactly if no cycle of child edges can be reached from the
  node's own entry, and that is so in every run whose control messages never went round in a circle.
Imports: TreeRssi.Proofs.Provenance
Trusted boundary: none
Main exports: swapParents, search_diverges, search_terminates
Open obligations: none
-/
import TreeRssi.Proofs.Provenance

namespace TreeRssi

open CText LabelledRun DepthFirst

/-! ### Two nodes that swap roles -/

/-- Node 3 climbs through node 2 and reports to it; later node 2 climbs through node 3 and reports its
    table, with node 3 in it, to node 3. -/
def swapParents : List NetAction :=
  [.radio (.beacon ⟨1, 0⟩ [(⟨2, 0⟩, -50)]), .radio (.beacon ⟨2, 0⟩ [(⟨3, 0⟩, -10)]),
    .sendControl ⟨3, 0⟩,
    .receive ⟨⟨3, 0⟩, ⟨2, 0⟩, [uControl, ch '3', ch ':', ch ';', 0]⟩ true, .deliver ⟨2, 0⟩,
    .radio (.beacon ⟨1, 0⟩ [(⟨3, 0⟩, -20)]), .radio (.beacon ⟨3, 0⟩ [(⟨2, 0⟩, -10)]),
    .sendControl ⟨2, 0⟩,
    .receive ⟨⟨2, 0⟩, ⟨3, 0⟩, [uControl, ch '2', ch ':', ch '3', ch ';', 0]⟩ true, .deliver ⟨3, 0⟩]

/-- A table with a cycle can be reached, and its search does not end. -/
theorem search_diverges :
    ¬ ∀ (nodes : Finset LinkAddr) (packetbufSize : Nat), DistinctIds nodes → (∀ i ∈ nodes, i.u8_0 ≠ 0) →
      128 ≤ packetbufSize → ∀ trace net,
        Run (Net.step nodes packetbufSize) anyStep (Net.boot BeaconNet.cold) trace net →
        ∀ i ∈ nodes, ∀ dstId, dstId ≠ i.u8_0 → SearchTerminates (net.table i) i.u8_0 dstId := by
  intro terminates
  let nodes : Finset LinkAddr := {⟨1, 0⟩, ⟨2, 0⟩, ⟨3, 0⟩}
  have swapped : ((execute (Net.step nodes 128) (Net.boot BeaconNet.cold) swapParents).map
      fun net => net.table ⟨3, 0⟩) = some [⟨3, [2]⟩, ⟨2, [3]⟩] := by
    decide +kernel
  obtain ⟨net, executed, table⟩ := Option.map_eq_some_iff.mp swapped
  have run := Run.of_execute anyStep (fun _ _ _ => trivial) executed
  have ends := terminates nodes 128 (by decide) (by decide) (by decide) _ net run ⟨3, 0⟩ (by decide)
  rw [table] at ends
  have fits : FitsArrays [⟨3, [2]⟩, ⟨2, [3]⟩] := ⟨by decide, by decide⟩
  have down : Edge (childrenOf [⟨3, [2]⟩, ⟨2, [3]⟩]) 3 2 := by decide
  have up : Edge (childrenOf [⟨3, [2]⟩, ⟨2, [3]⟩]) 2 3 := by decide
  exact (searchTerminates_iff_no_cycle fits).mp ends 3 .refl (.tail (.single down) up)

/-! ### When the search ends -/

variable {nodes : Finset LinkAddr} {link : LinkAddr → LinkAddr → Prop} {net : Net}

/-- A path of child edges in a table climbs the links between its ends. -/
theorem Honest.links_of_path (honest : Honest nodes link net) (distinct : DistinctIds nodes)
    {i : LinkAddr} {p c : UInt8} (path : Relation.TransGen (Edge (childrenOf (net.table i))) p c) :
    ∃ parent ∈ nodes, ∃ child ∈ nodes, parent.u8_0 = p ∧ child.u8_0 = c ∧
      Relation.TransGen (Linked nodes link) child parent := by
  induction path with
  | single edge =>
      obtain ⟨parent, child, rfl, rfl, ⟨linked, -, -⟩⟩ := honest.edges i _ _ (hasEdge_of_edge edge)
      exact ⟨parent, linked.parent_mem, child, linked.child_mem, rfl, rfl, .single linked⟩
  | tail _ edge ih =>
      obtain ⟨parent, parentMem, middle, middleMem, rfl, same, climb⟩ := ih
      obtain ⟨middle', child, same', rfl, ⟨linked, -, -⟩⟩ := honest.edges i _ _ (hasEdge_of_edge edge)
      cases distinct middle middleMem middle' linked.parent_mem (same.trans same'.symm)
      exact ⟨parent, parentMem, child, linked.child_mem, rfl, rfl, .head linked climb⟩

/-- Where the links form no cycle, neither do the edges of any table. -/
theorem Honest.grounded (honest : Honest nodes link net) (distinct : DistinctIds nodes)
    (acyclic : ∀ i, ¬ Relation.TransGen link i i) (i : LinkAddr) (id : UInt8) :
    Grounded (childrenOf (net.table i)) id := by
  apply grounded_iff_no_cycle.mpr
  intro id' _ cycle
  obtain ⟨parent, parentMem, child, childMem, same, same', climb⟩ := honest.links_of_path distinct cycle
  cases distinct parent parentMem child childMem (same.trans same'.symm)
  exact acyclic parent (Relation.TransGen.mono (fun _ _ linked => linked.link) _ _ climb)

/-- The search of a node's table ends for every destination exactly if no cycle of child edges can be
    reached from its own entry; and where the control messages of a run never went round in a circle,
    the search of every table ends for every destination. -/
theorem search_terminates (distinct : DistinctIds nodes) {packetbufSize : Nat}
    (big : 128 ≤ packetbufSize) {trace : List (Net × NetAction)}
    (run : Run (Net.step nodes packetbufSize) anyStep (Net.boot BeaconNet.cold) trace net) :
    (∀ i : LinkAddr, (∀ dstId, dstId ≠ i.u8_0 → SearchTerminates (net.table i) i.u8_0 dstId) ↔
      ∀ id, Reaches (childrenOf (net.table i)) i.u8_0 id →
        ¬ Relation.TransGen (Edge (childrenOf (net.table i))) id id) ∧
    ((∀ i, ¬ Relation.TransGen (SentTo packetbufSize trace) i i) →
      ∀ (i : LinkAddr) (dstId : UInt8), SearchTerminates (net.table i) i.u8_0 dstId) := by
  have honest := run_honest big (run_sendsOver run)
  exact ⟨fun i => searchTerminates_iff_no_cycle (honest.ok i).fits,
    fun acyclic i _ => searchTerminates_of_grounded (honest.grounded distinct acyclic i i.u8_0)⟩

/-- After the first report of node 2 the search at node 1 ends for every destination. -/
theorem search_terminates_firstReport :
    ∃ trace net, Run (Net.step {⟨1, 0⟩, ⟨2, 0⟩} 128) anyStep (Net.boot BeaconNet.cold) trace net ∧
      net.table ⟨1, 0⟩ = [⟨1, [2]⟩] ∧
      ∀ dstId, dstId ≠ 1 → SearchTerminates (net.table ⟨1, 0⟩) 1 dstId := by
  have reported : ((execute (Net.step {⟨1, 0⟩, ⟨2, 0⟩} 128) (Net.boot BeaconNet.cold) firstReport).map
      fun net => net.table ⟨1, 0⟩) = some [⟨1, [2]⟩] := by
    decide +kernel
  obtain ⟨net, executed, table⟩ := Option.map_eq_some_iff.mp reported
  have run := Run.of_execute anyStep (fun _ _ _ => trivial) executed
  have only : ∀ p c, Edge (childrenOf (net.table ⟨1, 0⟩)) p c → p = 1 ∧ c = 2 := by
    intro p c edge
    rw [table] at edge
    obtain ⟨node, member, own, listed⟩ := hasEdge_of_edge edge
    cases List.mem_singleton.mp member
    exact ⟨own.symm, List.mem_singleton.mp listed⟩
  refine ⟨_, net, run, table,
    ((search_terminates (by decide) (by decide) run).1 ⟨1, 0⟩).mpr fun id _ cycle => ?_⟩
  obtain ⟨_, first, -⟩ := Relation.TransGen.head'_iff.mp cycle
  obtain ⟨_, -, last⟩ := Relation.TransGen.tail'_iff.mp cycle
  have one := (only _ _ first).1
  rw [(only _ _ last).2] at one
  cases one

end TreeRssi
