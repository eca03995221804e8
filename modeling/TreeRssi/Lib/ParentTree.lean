/-
Module: TreeRssi.Lib.ParentTree
Layer: Lib
Purpose: Rooted trees given by a parent map, and routing on them. A `ParentTree` carries the proof
  that every vertex reaches the root by taking parents, so depth is defined and strictly grows from
  parent to child. Routing towards a vertex `d` goes down where the vertex knows that `d` is below it
  and up otherwise. If that knowledge is inherited by the child on the way to `d`, no vertex is
  visited twice; if it is complete, the packet takes exactly the graph distance.
Imports: Mathlib (relations, graph distance)
Trusted boundary: none
Main exports: ParentTree, Below, depth, depth_lt_card, rename, Knowledge, Hop, Hop.acyclic, Route,
  route_length_eq_dist, exists_route
Open obligations: none
-/
import Mathlib.Logic.Relation
import Mathlib.Combinatorics.SimpleGraph.Metric
import Mathlib.Order.Lattice.Nat

universe u v

/-- A tree on the vertices `verts`, given by its parent map. -/
structure ParentTree (V : Type u) where
  verts : Set V
  root : V
  parent : V → Option V
  root_mem : root ∈ verts
  parent_root : parent root = none
  parent_mem : ∀ {c p}, parent c = some p → c ∈ verts ∧ p ∈ verts
  reaches_root : ∀ {v}, v ∈ verts → Relation.ReflTransGen (fun c p => parent c = some p) v root

namespace ParentTree

variable {V : Type u} (T : ParentTree V)

/-- One step up the tree. -/
def Up (c p : V) : Prop := T.parent c = some p

/-- `Below v a`: `a` is `v` or one of its ancestors, so `v` lies in the subtree of `a`. -/
def Below (v a : V) : Prop := Relation.ReflTransGen T.Up v a

variable {T}

theorem Up.unique {c p q : V} (hp : T.Up c p) (hq : T.Up c q) : p = q :=
  Option.some.inj (hp.symm.trans hq)

theorem Below.root {v : V} (hv : v ∈ T.verts) : T.Below v T.root := T.reaches_root hv

/-- What lies below a vertex of the tree is a vertex of the tree, and conversely. -/
theorem Below.mem_iff {v a : V} (h : T.Below v a) : v ∈ T.verts ↔ a ∈ T.verts := by
  induction h with
  | refl => rfl
  | tail _ up ih => exact ih.trans ⟨fun _ => (T.parent_mem up).2, fun _ => (T.parent_mem up).1⟩

/-- Two ancestors of one vertex are comparable. -/
theorem Below.total {v a b : V} (ha : T.Below v a) (hb : T.Below v b) :
    T.Below a b ∨ T.Below b a :=
  Relation.ReflTransGen.total_of_right_unique (fun _ _ _ => Up.unique) ha hb

/-- A proper ancestor has a child on the way down to its descendant. -/
theorem Below.exists_child {d a : V} (h : T.Below d a) (ne : d ≠ a) :
    ∃ c, T.Up c a ∧ T.Below d c := by
  rcases h.cases_tail with same | ⟨c, below, up⟩
  · exact absurd same.symm ne
  · exact ⟨c, up, below⟩

/-! ### Depth -/

/-- Climb a number of steps towards the root. -/
def climb (T : ParentTree V) : ℕ → V → Option V
  | 0, v => some v
  | n + 1, v => (T.parent v).bind (T.climb n)

theorem climb_succ_of_up {c p : V} (up : T.Up c p) (n : ℕ) : T.climb (n + 1) c = T.climb n p := by
  simp only [climb, show T.parent c = some p from up, Option.bind_some]

theorem exists_climb {v : V} (hv : v ∈ T.verts) : ∃ n, T.climb n v = some T.root := by
  have path := T.reaches_root hv
  induction path using Relation.ReflTransGen.head_induction_on with
  | refl => exact ⟨0, rfl⟩
  | head up _ ih =>
      obtain ⟨n, hn⟩ := ih (T.parent_mem up).2
      exact ⟨n + 1, (climb_succ_of_up up n).trans hn⟩

theorem climb_unique {n m : ℕ} {v : V} (hn : T.climb n v = some T.root)
    (hm : T.climb m v = some T.root) : n = m := by
  induction n generalizing m v with
  | zero =>
      cases hn
      cases m with
      | zero => rfl
      | succ m => simp [climb, T.parent_root] at hm
  | succ n ih =>
      obtain ⟨p, up, hp⟩ := Option.bind_eq_some_iff.mp hn
      cases m with
      | zero =>
          cases hm
          rw [T.parent_root] at up
          cases up
      | succ m =>
          rw [climb_succ_of_up up] at hm
          rw [ih hp hm]

/-- The number of steps from a vertex up to the root. -/
noncomputable def depth (T : ParentTree V) (v : V) : ℕ := sInf {n | T.climb n v = some T.root}

theorem climb_depth {v : V} (hv : v ∈ T.verts) : T.climb (T.depth v) v = some T.root :=
  Nat.sInf_mem (exists_climb hv)

/-- A child is one deeper than its parent. -/
theorem depth_of_up {c p : V} (up : T.Up c p) : T.depth c = T.depth p + 1 := by
  obtain ⟨hc, hp⟩ := T.parent_mem up
  exact climb_unique (climb_depth hc) ((climb_succ_of_up up _).trans (climb_depth hp))

theorem depth_root : T.depth T.root = 0 := climb_unique (climb_depth T.root_mem) rfl

theorem Below.depth_le {v a : V} (h : T.Below v a) : T.depth a ≤ T.depth v := by
  induction h with
  | refl => exact Nat.le_refl _
  | tail _ up ih =>
      have := depth_of_up up
      omega

theorem Up.not_below {c p : V} (up : T.Up c p) : ¬ T.Below p c := by
  intro back
  have step := depth_of_up up
  have lower := back.depth_le
  omega

theorem Up.ne {c p : V} (up : T.Up c p) : c ≠ p := by
  rintro rfl
  exact up.not_below .refl

/-- The depth of a vertex is less than the number of vertices. -/
theorem depth_lt_card {s : Finset V} (inside : ∀ v ∈ T.verts, v ∈ s) {v : V} (hv : v ∈ T.verts) :
    T.depth v < s.card := by
  -- A vertex and its proper ancestors are one more than its depth.
  have ancestors : ∃ chain : Finset V, (∀ a ∈ chain, T.Below v a) ∧ chain.card = T.depth v + 1 := by
    have path := T.reaches_root hv
    induction path using Relation.ReflTransGen.head_induction_on with
    | refl => exact ⟨{T.root}, by simp [Below, Relation.ReflTransGen.refl], by simp [depth_root]⟩
    | @head c p up _ ih =>
        obtain ⟨chain, above, count⟩ := ih (T.parent_mem up).2
        refine ⟨chain.cons c fun old => Up.not_below up (above c old), ?_, ?_⟩
        · intro a member
          rcases Finset.mem_cons.mp member with rfl | old
          · exact .refl
          · exact .head up (above a old)
        · rw [Finset.card_cons, count, depth_of_up up]
  obtain ⟨chain, above, count⟩ := ancestors
  have bound := Finset.card_le_card fun a member => inside a ((above a member).mem_iff.mp hv)
  omega

/-- The child of `a` on the way down to `d` is unique. -/
theorem Below.child_unique {d a c e : V} (hc : T.Up c a) (he : T.Up e a) (dc : T.Below d c)
    (de : T.Below d e) : c = e := by
  have sameDepth : T.depth c = T.depth e := by rw [depth_of_up hc, depth_of_up he]
  rcases dc.total de with h | h
  · rcases h.cases_head with same | ⟨p, up, rest⟩
    · exact same
    · have := depth_of_up up
      have := Below.depth_le rest
      omega
  · rcases h.cases_head with same | ⟨p, up, rest⟩
    · exact same.symm
    · have := depth_of_up up
      have := Below.depth_le rest
      omega

/-! ### Other names for the vertices -/

/-- The tree with its vertices renamed: `f` leads from the new names to the old ones, and `g` back. -/
def rename {W : Type v} (T : ParentTree V) (f : W → V) (g : V → W) (back : ∀ v ∈ T.verts, f (g v) = v)
    (inj : ∀ w, g (f w) = w) : ParentTree W where
  verts := {w | f w ∈ T.verts}
  root := g T.root
  parent w := (T.parent (f w)).map g
  root_mem := by
    rw [Set.mem_ofPred, back _ T.root_mem]
    exact T.root_mem
  parent_root := by rw [back _ T.root_mem, T.parent_root, Option.map_none]
  parent_mem := by
    intro c p renamed
    obtain ⟨v, up, same⟩ := Option.map_eq_some_iff.mp renamed
    obtain ⟨child, parent⟩ := T.parent_mem up
    refine ⟨child, ?_⟩
    rw [Set.mem_ofPred, ← same, back v parent]
    exact parent
  reaches_root := by
    intro w vertex
    have climbs : ∀ {v}, T.Below v T.root →
        Relation.ReflTransGen (fun c p => (T.parent (f c)).map g = some p) (g v) (g T.root) := by
      intro v path
      induction path using Relation.ReflTransGen.head_induction_on with
      | refl => exact .refl
      | @head c p up _ ih =>
          refine .head ?_ ih
          rw [back c (T.parent_mem up).1, show T.parent c = some p from up, Option.map_some]
    have path := climbs (T.reaches_root vertex)
    rwa [inj w] at path

section
variable {W : Type v} {f : W → V} {g : V → W} {back : ∀ v ∈ T.verts, f (g v) = v} {inj : ∀ w, g (f w) = w}

theorem rename_up {c p : W} : (T.rename f g back inj).Up c p ↔ T.Up (f c) (f p) := by
  constructor
  · intro renamed
    obtain ⟨v, up, same⟩ := Option.map_eq_some_iff.mp renamed
    rw [Up, ← same, back v (T.parent_mem up).2]
    exact up
  · intro up
    exact Option.map_eq_some_iff.mpr ⟨f p, up, inj p⟩

theorem rename_below {v a : W} : (T.rename f g back inj).Below v a ↔ T.Below (f v) (f a) := by
  constructor
  · intro below
    induction below with
    | refl => exact .refl
    | tail _ up ih => exact ih.tail (rename_up.mp up)
  · have renamed : ∀ {v a}, T.Below v a → (T.rename f g back inj).Below (g v) (g a) := by
      intro v a below
      induction below with
      | refl => exact .refl
      | @tail b c below up ih =>
          obtain ⟨child, parent⟩ := T.parent_mem up
          exact ih.tail (rename_up.mpr (by rwa [back b child, back c parent]))
    intro below
    have path : (T.rename f g back inj).Below (g (f v)) (g (f a)) := renamed below
    rwa [inj v, inj a] at path

end

/-! ### Routing with partial knowledge -/

/-- Which vertices know that `d` is strictly below them. Knowledge is true, and the child on the way
    down to `d` shares it. -/
structure Knowledge (T : ParentTree V) (d : V) where
  knows : V → Prop
  below : ∀ {v}, knows v → T.Below d v ∧ v ≠ d
  inherited : ∀ {v c}, knows v → T.Up c v → T.Below d c → c ≠ d → knows c

/-- One hop towards `d`: down to the child on the way where the vertex knows, up otherwise. -/
inductive Hop (T : ParentTree V) {d : V} (K : Knowledge T d) : V → V → Prop where
  | down {v c : V} (known : K.knows v) (up : T.Up c v) (below : T.Below d c) : Hop T K v c
  | up {v p : V} (unknown : ¬ K.knows v) (notThere : v ≠ d) (up : T.Up v p) : Hop T K v p

namespace Hop

variable {d : V} {K : Knowledge T d}

/-- A hop leads to one place only. -/
theorem unique {v w w' : V} (h : Hop T K v w) (h' : Hop T K v w') : w = w' := by
  cases h with
  | down known up below =>
      cases h' with
      | down _ up' below' => exact Below.child_unique up up' below below'
      | up unknown _ _ => exact absurd known unknown
  | up unknown _ up =>
      cases h' with
      | down known _ _ => exact absurd known unknown
      | up _ _ up' => exact up.unique up'

/-- Once on the way down the packet stays on the way down, and gets strictly deeper. -/
theorem descends {v w : V} (path : Relation.TransGen (Hop T K) v w) (there : K.knows v ∨ v = d) :
    (K.knows w ∨ w = d) ∧ T.depth v < T.depth w := by
  have one : ∀ {v w}, Hop T K v w → (K.knows v ∨ v = d) →
      (K.knows w ∨ w = d) ∧ T.depth v < T.depth w := by
    intro v w hop there
    cases hop with
    | down known up below =>
        refine ⟨?_, by rw [depth_of_up up]; exact Nat.lt_succ_self _⟩
        by_cases arrived : w = d
        · exact .inr arrived
        · exact .inl (K.inherited known up below arrived)
    | up unknown notThere _ => exact absurd there (not_or.mpr ⟨unknown, notThere⟩)
  induction path with
  | single hop => exact one hop there
  | tail _ hop ih => exact ⟨(one hop ih.1).1, ih.2.trans (one hop ih.1).2⟩

/-- A packet that is not yet on the way down has only climbed so far. -/
theorem ascends {v w : V} (path : Relation.TransGen (Hop T K) v w)
    (notThere : ¬ (K.knows w ∨ w = d)) : T.depth w < T.depth v := by
  have one : ∀ {v w}, Hop T K v w → ¬ (K.knows v ∨ v = d) → T.depth w < T.depth v := by
    intro v w hop away
    cases hop with
    | down known _ _ => exact absurd (.inl known) away
    | up _ _ up => rw [depth_of_up up]; exact Nat.lt_succ_self _
  have away : ∀ {x y}, Hop T K x y → ¬ (K.knows y ∨ y = d) → ¬ (K.knows x ∨ x = d) :=
    fun hop far near => far (descends (.single hop) near).1
  induction path with
  | single hop => exact one hop (away hop notThere)
  | tail _ hop ih =>
      have before := away hop notThere
      exact (one hop before).trans (ih before)

/-- No packet visits a vertex twice. -/
theorem acyclic (v : V) : ¬ Relation.TransGen (Hop T K) v v := by
  intro cycle
  by_cases there : K.knows v ∨ v = d
  · exact absurd (descends cycle there).2 (Nat.lt_irrefl _)
  · exact absurd (ascends cycle there) (Nat.lt_irrefl _)

end Hop

/-! ### Routing with complete knowledge -/

/-- Every proper ancestor of `d` knows that `d` is below it. -/
def Knowledge.complete (T : ParentTree V) (d : V) : Knowledge T d where
  knows v := T.Below d v ∧ v ≠ d
  below h := h
  inherited _ _ below ne := ⟨below, ne⟩

/-- `Route d v n`: routing with complete knowledge takes `n` hops from `v` to `d`. -/
inductive Route (T : ParentTree V) (d : V) : V → ℕ → Prop where
  | arrived : Route T d d 0
  | hop {v w : V} {n : ℕ} (hop : Hop T (.complete T d) v w) (rest : Route T d w n) :
      Route T d v (n + 1)

/-- From every vertex of the tree the packet reaches every vertex of the tree. -/
theorem exists_route {d v : V} (hd : d ∈ T.verts) (hv : v ∈ T.verts) : ∃ n, Route T d v n := by
  have fromAncestor : ∀ {a}, T.Below d a → ∃ n, Route T d a n := by
    intro a below
    induction below with
    | refl => exact ⟨0, .arrived⟩
    | @tail c a below up ih =>
        obtain ⟨n, route⟩ := ih
        have proper : a ≠ d := by
          rintro rfl
          exact up.not_below below
        exact ⟨n + 1, .hop (.down ⟨below.tail up, proper⟩ up below) route⟩
  have climbing := T.reaches_root hv
  induction climbing using Relation.ReflTransGen.head_induction_on with
  | refl => exact fromAncestor (T.reaches_root hd)
  | @head c p up _ ih =>
      by_cases below : T.Below d c
      · exact fromAncestor below
      · obtain ⟨n, route⟩ := ih (T.parent_mem up).2
        have notThere : c ≠ d := by
          rintro rfl
          exact below .refl
        exact ⟨n + 1, .hop (.up (fun known => below known.1) notThere up) route⟩

theorem Route.unique {d v : V} {n m : ℕ} (hn : Route T d v n) (hm : Route T d v m) : n = m := by
  have stays : ∀ {w}, ¬ Hop T (.complete T d) d w := by
    intro w hop
    cases hop with
    | down known _ _ => exact known.2 rfl
    | up _ notThere _ => exact notThere rfl
  induction hn generalizing m with
  | arrived =>
      cases hm with
      | arrived => rfl
      | hop hop _ => exact absurd hop stays
  | hop hop _ ih =>
      cases hm with
      | arrived => exact absurd hop stays
      | hop hop' rest' =>
          cases hop.unique hop'
          rw [ih rest']

/-- The way from `v` to `d` has the root still ahead: nothing below the root is above both. -/
def Crosses (T : ParentTree V) (d v : V) : Prop :=
  v ≠ T.root ∧ ∀ a, T.Below v a → a ≠ T.root → ¬ T.Below d a

/-- It has until a hop reaches the root. -/
theorem Hop.crosses {d v w : V} (hop : Hop T (.complete T d) v w) :
    T.Crosses d v ↔ w = T.root ∨ T.Crosses d w := by
  cases hop with
  | down known up below =>
      have notRoot : w ≠ T.root := by
        rintro rfl
        rw [Up, T.parent_root] at up
        cases up
      refine iff_of_false (fun crosses => ?_) (not_or.mpr ⟨notRoot, fun crosses => ?_⟩)
      · exact crosses.2 v .refl crosses.1 known.1
      · exact crosses.2 w .refl notRoot below
  | up unknown notThere up =>
      have away : ¬ T.Below d v := fun below => unknown ⟨below, notThere⟩
      have notRoot : v ≠ T.root := by
        rintro rfl
        rw [Up, T.parent_root] at up
        cases up
      constructor
      · intro crosses
        by_cases top : w = T.root
        · exact .inl top
        · exact .inr ⟨top, fun a below => crosses.2 a (.head up below)⟩
      · intro later
        refine ⟨notRoot, fun a below proper => ?_⟩
        rcases below.cases_head with rfl | ⟨p, up', rest⟩
        · exact away
        · cases up.unique up'
          rcases later with rfl | crosses
          · rcases rest.cases_head with rfl | ⟨q, top, -⟩
            · exact absurd rfl proper
            · rw [Up, T.parent_root] at top
              cases top
          · exact crosses.2 a rest proper

/-- The undirected graph of parent links. -/
def graph (T : ParentTree V) : SimpleGraph V := .fromRel T.Up

theorem Up.adj {c p : V} (up : T.Up c p) : T.graph.Adj c p :=
  (SimpleGraph.fromRel_adj _ _ _).mpr ⟨up.ne, .inl up⟩

theorem Hop.adj {d v w : V} {K : Knowledge T d} (hop : Hop T K v w) : T.graph.Adj v w := by
  cases hop with
  | down _ up _ => exact up.adj.symm
  | up _ _ up => exact up.adj

/-- The routes from the two ends of a parent link differ by the link. -/
theorem route_of_up {d c p : V} {n m : ℕ} (up : T.Up c p) (hc : Route T d c n)
    (hp : Route T d p m) : n = m + 1 ∨ m = n + 1 := by
  by_cases below : T.Below d c
  · have proper : p ≠ d := by
      rintro rfl
      exact up.not_below below
    exact .inr (hp.unique (.hop (.down ⟨below.tail up, proper⟩ up below) hc))
  · have notThere : c ≠ d := by
      rintro rfl
      exact below .refl
    exact .inl (hc.unique (.hop (.up (fun known => below known.1) notThere up) hp))

/-- No walk beats the route. -/
theorem Route.le_walk {d v : V} {n : ℕ} (hd : d ∈ T.verts) (route : Route T d v n)
    (walk : T.graph.Walk v d) : n ≤ walk.length := by
  induction walk generalizing n with
  | nil => exact Nat.le_of_eq (route.unique .arrived)
  | @cons v w d adj rest ih =>
      obtain ⟨ne, link⟩ := (SimpleGraph.fromRel_adj _ _ _).mp adj
      have hw : w ∈ T.verts := by
        rcases link with up | up
        · exact (T.parent_mem up).2
        · exact (T.parent_mem up).1
      obtain ⟨m, onward⟩ := exists_route hd hw
      have bound := ih hd onward
      rw [SimpleGraph.Walk.length_cons]
      rcases link with up | up
      · rcases route_of_up up route onward with h | h <;> omega
      · rcases route_of_up up onward route with h | h <;> omega

/-- The route is itself a walk. -/
theorem Route.exists_walk {d v : V} {n : ℕ} (route : Route T d v n) :
    ∃ walk : T.graph.Walk v d, walk.length = n := by
  induction route with
  | arrived => exact ⟨.nil, rfl⟩
  | hop hop _ ih =>
      obtain ⟨walk, length⟩ := ih
      exact ⟨.cons hop.adj walk, by rw [SimpleGraph.Walk.length_cons, length]⟩

/-- Routing with complete knowledge takes exactly the tree distance. -/
theorem route_length_eq_dist {d v : V} {n : ℕ} (hd : d ∈ T.verts) (route : Route T d v n) :
    n = T.graph.dist v d := by
  obtain ⟨walk, length⟩ := route.exists_walk
  obtain ⟨shortest, shortestLength⟩ :=
    (SimpleGraph.Walk.reachable walk).exists_walk_length_eq_dist
  have upper := SimpleGraph.dist_le walk
  have lower := route.le_walk hd shortest
  omega

/-- So each hop brings the packet one nearer. -/
theorem Hop.nearer {d v w : V} (hd : d ∈ T.verts) (hop : Hop T (.complete T d) v w) :
    T.graph.dist v d = T.graph.dist w d + 1 := by
  have hw : w ∈ T.verts := by
    cases hop with
    | down _ up _ => exact (T.parent_mem up).1
    | up _ _ up => exact (T.parent_mem up).2
  obtain ⟨n, rest⟩ := exists_route hd hw
  have whole := route_length_eq_dist hd (.hop hop rest)
  have part := route_length_eq_dist hd rest
  omega

theorem exists_hop {d v : V} (hd : d ∈ T.verts) (hv : v ∈ T.verts) (ne : v ≠ d) :
    ∃ w ∈ T.verts, Hop T (.complete T d) v w := by
  obtain ⟨n, route⟩ := exists_route hd hv
  cases route with
  | arrived => exact absurd rfl ne
  | @hop _ w n hop rest =>
      refine ⟨w, ?_, hop⟩
      cases hop with
      | down _ up _ => exact (T.parent_mem up).1
      | up _ _ up => exact (T.parent_mem up).2

end ParentTree
