/-
Module: TreeRssi.Lib.BestPath
Layer: Lib
Purpose: Path sums in a directed graph with integer links, and the two halves of a shortest-path
  fixpoint argument: a labelling that no link can improve is above every path sum, and a labelling
  that is tight along a parent pointer is itself the sum of the parent path. Labels that strictly
  grow along a relation exclude cycles and, being bounded, lead to a root. A greatest path sum extends a
  greatest path sum, so fewer vertices have a better one, and their number counts the rounds of
  relaxation that are needed.
Imports: Mathlib (integers, relations, greatest elements, cardinality of sets)
Trusted boundary: none
Main exports: PathSum, ParentSum, PathSum.le_of_relaxed, parentSum_of_tight, acyclic_of_ascending,
  reaches_root_of_ascending, Best, Best.pred, rank, Best.rank_lt, Best.rank_lt_card
Open obligations: none
-/
import Mathlib.Data.Int.Init
import Mathlib.Data.Set.Card
import Mathlib.Logic.Relation
import Mathlib.Order.Bounds.Defs

universe u

namespace BestPath

variable {V : Type u} {link : V → V → Option ℤ} {isRoot : V → Prop}

/-- `PathSum link isRoot v s`: some path of links from a root to `v` has the sum `s`. -/
inductive PathSum (link : V → V → Option ℤ) (isRoot : V → Prop) : V → ℤ → Prop where
  | root {r : V} (h : isRoot r) : PathSum link isRoot r 0
  | step {u v : V} {s x : ℤ} (path : PathSum link isRoot u s) (hop : link u v = some x) :
      PathSum link isRoot v (s + x)

/-- `ParentSum link parent isRoot v s`: following `parent` from `v` ends at a root, and the links
    walked back from there to `v` add up to `s`. -/
inductive ParentSum (link : V → V → Option ℤ) (parent : V → Option V) (isRoot : V → Prop) :
    V → ℤ → Prop where
  | root {r : V} (h : isRoot r) : ParentSum link parent isRoot r 0
  | step {u v : V} {s x : ℤ} (path : ParentSum link parent isRoot u s) (up : parent v = some u)
      (hop : link u v = some x) : ParentSum link parent isRoot v (s + x)

/-- With negative links every path sum is at most zero. -/
theorem PathSum.nonpos (negative : ∀ {u v x}, link u v = some x → x < 0) {v : V} {s : ℤ}
    (h : PathSum link isRoot v s) : s ≤ 0 := by
  induction h with
  | root _ => exact Int.le_refl 0
  | step _ hop ih =>
      have := negative hop
      omega

/-- A labelling that no link can improve above `floor` dominates every path sum above `floor`. -/
theorem PathSum.le_of_relaxed {f : V → ℤ} (floor : ℤ)
    (negative : ∀ {u v x}, link u v = some x → x < 0) (atRoot : ∀ {r}, isRoot r → 0 ≤ f r)
    (relaxed : ∀ {u v x}, link u v = some x → floor < f u + x → f u + x ≤ f v)
    {v : V} {s : ℤ} (h : PathSum link isRoot v s) (above : floor < s) : s ≤ f v := by
  induction h with
  | root h => exact atRoot h
  | step _ hop ih =>
      have := negative hop
      have before := ih (by omega)
      have after := relaxed hop (by omega)
      omega

/-- Where a labelling strictly grows along a relation, the relation has no cycle. -/
theorem acyclic_of_ascending {R : V → V → Prop} {f : V → ℤ} (ascending : ∀ {a b}, R a b → f a < f b)
    (v : V) : ¬ Relation.TransGen R v v := by
  have grows : ∀ {a b}, Relation.TransGen R a b → f a < f b := by
    intro a b path
    induction path with
    | single step => exact ascending step
    | tail _ step ih => exact Int.lt_trans ih (ascending step)
  intro cycle
  exact absurd (grows cycle) (Int.lt_irrefl _)

/-- A labelling that is bounded above and strictly grows from every vertex but the roots leads to a
    root, through vertices where `P` holds. -/
theorem reaches_root_of_ascending {R : V → V → Prop} {P : V → Prop} {f : V → ℤ}
    (bounded : ∀ {v}, P v → f v ≤ 0)
    (next : ∀ {v}, P v → ¬ isRoot v → ∃ u, P u ∧ R v u ∧ f v < f u) {v : V} (hv : P v) :
    ∃ r, isRoot r ∧ Relation.ReflTransGen (fun a b => R a b ∧ P b) v r := by
  -- The distance of the label from its bound decreases.
  induction room : (-f v).toNat using Nat.strongRecOn generalizing v with
  | ind room ih =>
      by_cases root : isRoot v
      · exact ⟨v, root, .refl⟩
      · obtain ⟨u, hu, step, grows⟩ := next hv root
        have low := bounded hv
        have high := bounded hu
        obtain ⟨r, rootR, path⟩ := ih (-f u).toNat (by omega) hu rfl
        exact ⟨r, rootR, .head ⟨step, hu⟩ path⟩

/-- A labelling that is tight along the parent pointers of the vertices in `P` is the sum of the
    parent path. -/
theorem parentSum_of_tight {parent : V → Option V} {P : V → Prop} {f : V → ℤ}
    (negative : ∀ {u v x}, link u v = some x → x < 0) (bounded : ∀ {v}, P v → f v ≤ 0)
    (atRoot : ∀ {r}, isRoot r → f r = 0)
    (tight : ∀ {v}, P v → ¬ isRoot v →
      ∃ u x, P u ∧ parent v = some u ∧ link u v = some x ∧ f v = f u + x) {v : V} (hv : P v) :
    ParentSum link parent isRoot v (f v) := by
  induction room : (-f v).toNat using Nat.strongRecOn generalizing v with
  | ind room ih =>
      by_cases root : isRoot v
      · rw [atRoot root]
        exact .root root
      · obtain ⟨u, x, hu, up, hop, value⟩ := tight hv root
        have low := bounded hv
        have high := bounded hu
        have step := negative hop
        rw [value]
        exact .step (ih (-f u).toNat (by omega) hu rfl) up hop

/-! ### Greatest path sums -/

/-- `s` is the greatest path sum of `v`. -/
def Best (link : V → V → Option ℤ) (isRoot : V → Prop) (v : V) (s : ℤ) : Prop :=
  IsGreatest {s | PathSum link isRoot v s} s

theorem Best.unique {v : V} {s t : ℤ} (hs : Best link isRoot v s) (ht : Best link isRoot v t) : s = t :=
  Int.le_antisymm (ht.2 hs.1) (hs.2 ht.1)

/-- The path with the greatest sum is a root, or goes on from a path with the greatest sum. -/
theorem Best.pred {v : V} {s : ℤ} (best : Best link isRoot v s) :
    (isRoot v ∧ s = 0) ∨ ∃ u t x, Best link isRoot u t ∧ link u v = some x ∧ s = t + x := by
  obtain ⟨path, greatest⟩ := best
  cases path with
  | root h => exact .inl ⟨h, rfl⟩
  | @step u _ t x path hop =>
      refine .inr ⟨u, t, x, ⟨path, fun t' path' => ?_⟩, hop, rfl⟩
      have bound : t' + x ≤ t + x := greatest (PathSum.step path' hop)
      omega

/-- How many vertices have a greatest path sum above `s`. -/
noncomputable def rank (link : V → V → Option ℤ) (isRoot : V → Prop) (s : ℤ) : ℕ :=
  {w | ∃ t, Best link isRoot w t ∧ s < t}.ncard

section

variable {vertices : Set V}

/-- Vertices with a path are roots or have a link to them. -/
theorem PathSum.mem (roots : ∀ {r}, isRoot r → r ∈ vertices)
    (ends : ∀ {u v x}, link u v = some x → v ∈ vertices) {v : V} {s : ℤ}
    (path : PathSum link isRoot v s) : v ∈ vertices := by
  cases path with
  | root h => exact roots h
  | step _ hop => exact ends hop

/-- A better path sum has a lower rank. -/
theorem Best.rank_lt (finite : vertices.Finite) (roots : ∀ {r}, isRoot r → r ∈ vertices)
    (ends : ∀ {u v x}, link u v = some x → v ∈ vertices) {u : V} {s t : ℤ}
    (best : Best link isRoot u t) (better : s < t) : rank link isRoot t < rank link isRoot s := by
  have inside : {w | ∃ t, Best link isRoot w t ∧ s < t} ⊆ vertices := fun w ⟨_, path, _⟩ =>
    path.1.mem roots ends
  refine Set.ncard_lt_ncard ⟨?_, fun back => ?_⟩ (finite.subset inside)
  · rintro w ⟨t', path, above⟩
    exact ⟨t', path, better.trans above⟩
  · obtain ⟨t', path, above⟩ := back ⟨t, best, better⟩
    rw [path.unique best] at above
    exact Int.lt_irrefl _ above

/-- There are fewer better vertices than vertices. -/
theorem Best.rank_lt_card {vertices : Finset V} (roots : ∀ {r}, isRoot r → r ∈ vertices)
    (ends : ∀ {u v x}, link u v = some x → v ∈ vertices) {v : V} {s : ℤ}
    (best : Best link isRoot v s) : rank link isRoot s < vertices.card := by
  have inside : ∀ {w t}, Best link isRoot w t → w ∈ (vertices : Set V) := fun path =>
    path.1.mem roots ends
  rw [rank, ← Set.ncard_coe_finset]
  refine Set.ncard_lt_ncard ⟨?_, fun back => ?_⟩ (Finset.finite_toSet _)
  · rintro w ⟨t, path, -⟩
    exact inside path
  · obtain ⟨t, path, above⟩ := back (inside best)
    rw [path.unique best] at above
    exact Int.lt_irrefl _ above

end

end BestPath
