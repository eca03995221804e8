/-
Module: TreeRssi.Proofs.Delivery
Layer: Proofs
Purpose: Delivery on a converged network. Where every best parent is the tree parent and every table
  holds the edges of its own subtree, one decision of `routing_upstream_downstream` is one hop of tree
  routing with complete knowledge: down to the child on the way where the destination is below, up
  otherwise. So a packet takes the tree distance, and one for nobody is dropped at the root.
Imports: TreeRssi.Core.Routing, TreeRssi.Lib.ParentTree, TreeRssi.Proofs.Search
Trusted boundary: none
Main exports: Converged, Converged.reaches_iff, Converged.hop, Converged.unknown, journey_delivers
Open obligations: none
-/
import TreeRssi.Core.Routing
import TreeRssi.Lib.ParentTree
import TreeRssi.Proofs.Search

namespace TreeRssi

open DepthFirst

/-- A converged network on the tree `T` of node ids, where an id stands for the address with a second byte
    of 0: node 1 is the root, best parents are tree parents, and the table of each node holds exactly the
    edges of its own subtree, in any order. -/
structure Converged (T : ParentTree UInt8) (tables : UInt8 → RoutingTree)
    (bestParents : UInt8 → LinkAddr) : Prop where
  root : T.root = 1
  nonzero : 0 ∉ T.verts
  parent : ∀ {i p}, T.Up i p → (bestParents i).u8_0 = p
  rootParent : bestParents T.root = linkaddrNull
  entries : ∀ i ∈ T.verts, EntriesNodup (tables i)
  edges : ∀ i ∈ T.verts, ∀ p c, HasEdge (tables i) p c ↔ T.Up c p ∧ T.Below p i

/-! ### More fuel -/

theorem routeHop_mono {fuel more : Nat} (le : fuel ≤ more) {tree : RoutingTree} {best : LinkAddr}
    {myId dstId : UInt8} {decision : Decision}
    (decided : routeHop fuel tree best myId dstId = some decision) :
    routeHop more tree best myId dstId = some decision := by
  rw [routeHop] at decided ⊢
  split at decided
  next here => rwa [if_pos here]
  next elsewhere =>
    obtain ⟨forwarder, found, rfl⟩ := Option.map_eq_some_iff.mp decided
    rw [if_neg elsewhere, searchForwarder_mono le found]
    rfl

section
variable {tables : UInt8 → RoutingTree} {bestParents : UInt8 → LinkAddr} {dstId : UInt8}

/-- From some fuel on the journey from `node` has the outcome `outcome`. -/
def Ends (tables : UInt8 → RoutingTree) (bestParents : UInt8 → LinkAddr) (dstId node : UInt8)
    (outcome : Outcome) : Prop :=
  ∃ fuel, ∀ more, fuel ≤ more → journey tables bestParents dstId more node = some outcome

theorem Ends.here {node : UInt8} (arrived : dstId = node) :
    Ends tables bestParents dstId node (.delivered node 0) := by
  refine ⟨1, fun more enough => ?_⟩
  obtain ⟨more, rfl⟩ := Nat.exists_eq_add_of_le' enough
  rw [journey, routeHop, if_pos arrived]

theorem Ends.drop {node : UInt8} {fuel : Nat}
    (dropped : routeHop fuel (tables node) (bestParents node) node dstId = some .drop) :
    Ends tables bestParents dstId node (.dropped node 0) := by
  refine ⟨fuel + 1, fun more enough => ?_⟩
  have positive : 1 ≤ more := by omega
  obtain ⟨more, rfl⟩ := Nat.exists_eq_add_of_le' positive
  rw [journey, routeHop_mono (by omega) dropped]

theorem Ends.forward {node : UInt8} {fuel : Nat} {next : LinkAddr} {outcome : Outcome}
    (forwarded : routeHop fuel (tables node) (bestParents node) node dstId = some (.forward next))
    (rest : Ends tables bestParents dstId next.u8_0 outcome) :
    Ends tables bestParents dstId node outcome.afterHop := by
  obtain ⟨restFuel, rest⟩ := rest
  refine ⟨max fuel restFuel + 1, fun more enough => ?_⟩
  have positive : 1 ≤ more := by omega
  obtain ⟨more, rfl⟩ := Nat.exists_eq_add_of_le' positive
  rw [journey, routeHop_mono (by omega) forwarded]
  simp only
  rw [rest more (by omega)]
  rfl

end

/-! ### One hop -/

namespace Converged

variable {T : ParentTree UInt8} {tables : UInt8 → RoutingTree} {bestParents : UInt8 → LinkAddr}

theorem edge_iff (converged : Converged T tables bestParents) {i : UInt8} (vertex : i ∈ T.verts)
    (p c : UInt8) : Edge (childrenOf (tables i)) p c ↔ T.Up c p ∧ T.Below p i :=
  ⟨fun edge => (converged.edges i vertex p c).mp (hasEdge_of_edge edge),
    fun edge => edge_of_hasEdge (converged.entries i vertex) ((converged.edges i vertex p c).mpr edge)⟩

/-- In the table of `i`, what can be reached from a vertex of its subtree is what lies below it. -/
theorem reaches_iff (converged : Converged T tables bestParents) {i p : UInt8} (vertex : i ∈ T.verts)
    (below : T.Below p i) (d : UInt8) : Reaches (childrenOf (tables i)) p d ↔ T.Below d p := by
  constructor
  · intro path
    induction path with
    | refl => exact .refl
    | tail _ edge ih => exact .head ((converged.edge_iff vertex _ _).mp edge).1 ih
  · intro path
    induction path using Relation.ReflTransGen.head_induction_on with
    | refl => exact .refl
    | head up rest ih =>
        exact ih.tail ((converged.edge_iff vertex _ _).mpr ⟨up, rest.trans below⟩)

/-- The search of every table ends. -/
theorem searchTerminates (converged : Converged T tables bestParents) {i : UInt8} (vertex : i ∈ T.verts)
    (d : UInt8) : SearchTerminates (tables i) i d := by
  refine searchTerminates_of_grounded (grounded_iff_no_cycle.mpr fun id path cycle => ?_)
  obtain ⟨c, edge, rest⟩ := Relation.TransGen.head'_iff.mp cycle
  have up := (converged.edge_iff vertex _ _).mp edge
  exact up.1.not_below ((converged.reaches_iff vertex (.head up.1 up.2) id).mp rest)

/-- The search finds the child on the way down to the destination, or 0 where the destination is not
    below. -/
theorem search_iff (converged : Converged T tables bestParents) {i d : UInt8} (vertex : i ∈ T.verts)
    (other : d ≠ i) : ∃ fuel forwarder, searchForwarder fuel (tables i) i d = some forwarder ∧
      ((forwarder = 0 ∧ ¬ T.Below d i) ∨ (forwarder ≠ 0 ∧ T.Up forwarder i ∧ T.Below d forwarder)) := by
  obtain ⟨fuel, forwarder, found⟩ := converged.searchTerminates vertex d
  refine ⟨fuel, forwarder, found, ?_⟩
  by_cases zero : forwarder = 0
  · subst zero
    refine .inl ⟨rfl, fun below => ?_⟩
    obtain ⟨c, up, belowC⟩ := below.exists_child other
    have noNull : 0 ∉ childrenOf (tables i) i := fun listed =>
      converged.nonzero (T.parent_mem ((converged.edge_iff vertex i 0).mp listed).1).1
    exact searchForwarder_none found ((converged.edge_iff vertex i c).mpr ⟨up, .refl⟩) noNull
      ((converged.reaches_iff vertex (.single up) d).mpr belowC)
  · obtain ⟨edge, path⟩ := searchForwarder_child zero found
    have up := ((converged.edge_iff vertex i forwarder).mp edge).1
    exact .inr ⟨zero, up, (converged.reaches_iff vertex (.single up) d).mp path⟩

/-- A node whose search fails sends the packet to its tree parent. -/
theorem up (converged : Converged T tables bestParents) {i p d : UInt8} {fuel : Nat} (other : d ≠ i)
    (found : searchForwarder fuel (tables i) i d = some 0) (up : T.Up i p) :
    routeHop fuel (tables i) (bestParents i) i d = some (.forward (bestParents i)) := by
  have hasParent : bestParents i ≠ linkaddrNull := by
    intro null
    have zero : p = 0 := by rw [← converged.parent up, null]; rfl
    exact converged.nonzero (zero ▸ (T.parent_mem up).2)
  rw [routeHop, if_neg other, found]
  simp [hasParent]

/-- One decision is one hop of routing with complete knowledge. -/
theorem hop (converged : Converged T tables bestParents) {i d w : UInt8} (vertex : i ∈ T.verts)
    (hop : T.Hop (.complete T d) i w) : ∃ fuel next,
      routeHop fuel (tables i) (bestParents i) i d = some (.forward next) ∧ next.u8_0 = w := by
  have other : d ≠ i := by
    rintro rfl
    cases hop with
    | down known _ _ => exact known.2 rfl
    | up _ notThere _ => exact notThere rfl
  obtain ⟨fuel, forwarder, found, ⟨rfl, away⟩ | ⟨proper, upF, belowF⟩⟩ :=
    converged.search_iff vertex other
  · cases hop with
    | down known _ _ => exact absurd known.1 away
    | up _ _ up => exact ⟨fuel, _, converged.up other found up, converged.parent up⟩
  · refine ⟨fuel, ⟨forwarder, 0⟩, by rw [routeHop, if_neg other, found]; simp [proper], ?_⟩
    have down : T.Hop (.complete T d) i forwarder := .down ⟨belowF.tail upF, other.symm⟩ upF belowF
    exact down.unique hop

/-- Nobody finds a destination outside the network. -/
theorem unknown (converged : Converged T tables bestParents) {v dstId : UInt8} (vertex : v ∈ T.verts)
    (outside : dstId ∉ T.verts) :
    dstId ≠ v ∧ ∃ fuel, searchForwarder fuel (tables v) v dstId = some 0 := by
  have other : dstId ≠ v := fun same => outside (same ▸ vertex)
  obtain ⟨fuel, forwarder, found, ⟨rfl, -⟩ | ⟨-, up, below⟩⟩ := converged.search_iff vertex other
  · exact ⟨other, fuel, found⟩
  · exact absurd (below.mem_iff.mpr (T.parent_mem up).1) outside

/-! ### Whole journeys -/

/-- A packet follows the route of the tree. -/
theorem delivers (converged : Converged T tables bestParents) {dstId v : UInt8} {n : Nat}
    (vertex : v ∈ T.verts) (route : T.Route dstId v n) :
    Ends tables bestParents dstId v (.delivered dstId n) := by
  induction route with
  | arrived => exact .here rfl
  | @hop v w n hop _ ih =>
      have wMem : w ∈ T.verts := by
        cases hop with
        | down _ up _ => exact (T.parent_mem up).1
        | up _ _ up => exact (T.parent_mem up).2
      obtain ⟨fuel, next, forwarded, rfl⟩ := converged.hop vertex hop
      exact .forward forwarded (ih wMem)

/-- A packet for nobody climbs to the root and is dropped there. -/
theorem drops (converged : Converged T tables bestParents) {dstId v : UInt8} (vertex : v ∈ T.verts)
    (outside : dstId ∉ T.verts) : ∃ hops, Ends tables bestParents dstId v (.dropped 1 hops) := by
  have climb := T.reaches_root vertex
  induction climb using Relation.ReflTransGen.head_induction_on with
  | refl =>
      obtain ⟨other, fuel, found⟩ := converged.unknown T.root_mem outside
      have dropped : routeHop fuel (tables T.root) (bestParents T.root) T.root dstId = some .drop := by
        rw [routeHop, if_neg other, found, converged.rootParent]
        rfl
      rw [← converged.root]
      exact ⟨0, .drop dropped⟩
  | @head v p up _ ih =>
      obtain ⟨other, fuel, found⟩ := converged.unknown (T.parent_mem up).1 outside
      obtain ⟨hops, ends⟩ := ih (T.parent_mem up).2
      rw [← converged.parent up] at ends
      exact ⟨hops + 1, .forward (converged.up other found up) ends⟩

end Converged

/-- On a converged network a packet for a node of the network is delivered there after as many hops as
    the tree distance, and any other packet is dropped at the root. -/
theorem journey_delivers {T : ParentTree UInt8} {tables : UInt8 → RoutingTree}
    {bestParents : UInt8 → LinkAddr} (converged : Converged T tables bestParents) {node : UInt8}
    (vertex : node ∈ T.verts) (dstId : UInt8) :
    (dstId ∈ T.verts →
      Ends tables bestParents dstId node (.delivered dstId (T.graph.dist node dstId))) ∧
    (dstId ∉ T.verts → ∃ hops, Ends tables bestParents dstId node (.dropped 1 hops)) := by
  refine ⟨fun inside => ?_, fun outside => converged.drops vertex outside⟩
  obtain ⟨n, route⟩ := T.exists_route inside vertex
  rw [← T.route_length_eq_dist inside route]
  exact converged.delivers vertex route

/-! ### Two nodes below node 1 -/

/-- Nodes 8 and 17 below node 1. -/
def star : ParentTree UInt8 where
  verts := {i | i = 1 ∨ i = 8 ∨ i = 17}
  root := 1
  parent c := if c = 8 ∨ c = 17 then some 1 else none
  root_mem := .inl rfl
  parent_root := by decide
  parent_mem := by
    intro c p up
    obtain ⟨child, same⟩ := Option.ite_none_right_eq_some.mp up
    cases same
    exact ⟨.inr child, .inl rfl⟩
  reaches_root := by
    rintro v (rfl | child)
    · exact .refl
    · exact .single (if_pos child)

theorem star_up {c p : UInt8} : star.Up c p ↔ (c = 8 ∨ c = 17) ∧ p = 1 := by
  constructor
  · intro up
    obtain ⟨child, same⟩ := Option.ite_none_right_eq_some.mp up
    exact ⟨child, (Option.some.inj same).symm⟩
  · rintro ⟨child, rfl⟩
    exact if_pos child

/-- What the three nodes know when they are converged. -/
theorem star_converged {tables : UInt8 → RoutingTree} {bestParents : UInt8 → LinkAddr}
    (top : bestParents 1 = linkaddrNull) (known : tables 1 = [⟨1, [8, 17]⟩])
    (leaves : ∀ i, i = 8 ∨ i = 17 → bestParents i = ⟨1, 0⟩ ∧ tables i = []) :
    Converged star tables bestParents where
  root := rfl
  nonzero := by rintro (same | same | same) <;> cases same
  parent up := by
    obtain ⟨child, rfl⟩ := star_up.mp up
    rw [(leaves _ child).1]
  rootParent := top
  entries := by
    rintro i (rfl | child)
    · exact known ▸ List.nodup_singleton _
    · exact (leaves i child).2 ▸ List.nodup_nil
  edges := by
    rintro i (rfl | child) p c
    · rw [known]
      constructor
      · rintro ⟨node, member, rfl, listed⟩
        cases List.mem_singleton.mp member
        exact ⟨star_up.mpr ⟨by simpa using listed, rfl⟩, .refl⟩
      · rintro ⟨up, -⟩
        obtain ⟨below, rfl⟩ := star_up.mp up
        exact ⟨⟨1, [8, 17]⟩, List.mem_singleton_self _, rfl, by simpa using below⟩
    · rw [(leaves i child).2]
      constructor
      · rintro ⟨node, member, -⟩
        cases member
      · rintro ⟨up, below⟩
        obtain ⟨-, rfl⟩ := star_up.mp up
        exact absurd below (star_up.mpr ⟨child, rfl⟩ : star.Up i 1).not_below

/-- From node 8 a packet climbs to node 1 and descends to node 17; one for node 9 is dropped at node 1. -/
theorem journey_delivers_siblings :
    Ends (fun i => if i = 1 then [⟨1, [8, 17]⟩] else [])
        (fun i => if i = 1 then linkaddrNull else ⟨1, 0⟩) 17 8 (.delivered 17 (star.graph.dist 8 17)) ∧
      star.graph.dist 8 17 = 2 ∧
      ∃ hops, Ends (fun i => if i = 1 then [⟨1, [8, 17]⟩] else [])
        (fun i => if i = 1 then linkaddrNull else ⟨1, 0⟩) 9 8 (.dropped 1 hops) := by
  have converged : Converged star (fun i => if i = 1 then [⟨1, [8, 17]⟩] else [])
      (fun i => if i = 1 then linkaddrNull else ⟨1, 0⟩) :=
    star_converged rfl rfl (by rintro i (rfl | rfl) <;> exact ⟨rfl, rfl⟩)
  have vertex : (8 : UInt8) ∈ star.verts := .inr (.inl rfl)
  have sibling : (17 : UInt8) ∈ star.verts := .inr (.inr rfl)
  have up8 : star.Up 8 1 := star_up.mpr ⟨.inl rfl, rfl⟩
  have up17 : star.Up 17 1 := star_up.mpr ⟨.inr rfl, rfl⟩
  have notBelow : ¬ star.Below 17 8 := by
    intro below
    obtain ⟨c, up, -⟩ := below.exists_child (by decide)
    exact absurd (star_up.mp up).2 (by decide)
  have route : star.Route 17 8 2 :=
    .hop (.up (fun known => notBelow known.1) (by decide) up8)
      (.hop (.down ⟨.single up17, by decide⟩ up17 .refl) .arrived)
  exact ⟨(journey_delivers converged vertex 17).1 sibling, (star.route_length_eq_dist sibling route).symm,
    (journey_delivers converged vertex 9).2 (by rintro (same | same | same) <;> cases same)⟩

end TreeRssi
